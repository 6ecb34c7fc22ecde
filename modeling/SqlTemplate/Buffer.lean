import SqlTemplate.Error

/-!
# Output buffers

A byte sequence that grows at its end inside an allocation of known capacity. Room is made in
steps that at least double the capacity, rounded up to a multiple of `Buffer.align`.
-/

namespace SqlTemplate

structure Buffer where
  bytes : ByteArray
  capacity : Nat
  size_le : bytes.size ≤ capacity

namespace Buffer

def align : Nat := 8

def withCapacity (capacity : Nat) : Buffer := ⟨.empty, capacity, Nat.zero_le _⟩

def empty : Buffer := withCapacity 0

/-- A buffer that its content fills exactly. -/
def ofBytes (bytes : ByteArray) : Buffer := ⟨bytes, bytes.size, Nat.le_refl _⟩

def ofText (text : String) : Buffer := ofBytes text.toByteArray

def toList (b : Buffer) : Bytes := b.bytes.data.toList

def size (b : Buffer) : Nat := b.bytes.size

/-- The capacity after a request for `n` more bytes than there is room for. -/
def grown (capacity size n : Nat) : Nat :=
  let wanted := max (max (2 * capacity) (capacity + max n (capacity / 2))) (size + n)
  (wanted + (align - 1)) / align * align

theorem size_add_le_grown (capacity size n : Nat) : size + n ≤ grown capacity size n := by
  simp only [grown, align]
  omega

/-- Makes room for `n` more bytes. -/
def reserve (b : Buffer) (n : Nat) : Buffer :=
  if n ≤ b.capacity - b.bytes.size then b
  else ⟨b.bytes, grown b.capacity b.bytes.size n,
    Nat.le_trans (Nat.le_add_right _ n) (size_add_le_grown _ _ n)⟩

theorem bytes_reserve (b : Buffer) (n : Nat) : (b.reserve n).bytes = b.bytes := by
  unfold reserve
  split <;> rfl

theorem size_add_le_capacity_reserve (b : Buffer) (n : Nat) :
    b.bytes.size + n ≤ (b.reserve n).capacity := by
  have fits := b.size_le
  unfold reserve
  split
  · omega
  · exact size_add_le_grown _ _ n

/-- Appends bytes at the end. -/
def append (b : Buffer) (more : Bytes) : Buffer where
  bytes := b.bytes ++ more.toByteArray
  capacity := (b.reserve more.length).capacity
  size_le := by
    rw [ByteArray.size_append, List.size_toByteArray]
    exact size_add_le_capacity_reserve b more.length

def push (b : Buffer) (byte : UInt8) : Buffer := b.append [byte]

def pushText (b : Buffer) (text : String) : Buffer := b.append (utf8 text)

/-- Keeps the first `n` bytes. -/
def truncate (b : Buffer) (n : Nat) : Buffer where
  bytes := b.bytes.extract 0 n
  capacity := b.capacity
  size_le := by
    have fits := b.size_le
    rw [ByteArray.size_extract]
    omega

/-- Drops the last byte, if there is one. -/
def pop (b : Buffer) : Buffer := b.truncate (b.bytes.size - 1)

/-- Replaces the last byte, if there is one. -/
def setLast (b : Buffer) (byte : UInt8) : Buffer :=
  if b.bytes.size = 0 then b else b.pop.push byte

/-- The bytes from position `start` on. -/
def tail (b : Buffer) (start : Nat) : Bytes := b.toList.drop start

/-- The content as a text. -/
def toText (b : Buffer) : Except Error String :=
  match String.fromUTF8? b.bytes with
  | some text => .ok text
  | none => .error (.invalidUtf8 ((Utf8.fault? b.toList).getD (.cut b.size)))

@[simp] theorem toList_append (b : Buffer) (more : Bytes) :
    (b.append more).toList = b.toList ++ more := by
  simp [toList, append, ByteArray.data_append, List.data_toByteArray]

@[simp] theorem toList_push (b : Buffer) (byte : UInt8) :
    (b.push byte).toList = b.toList ++ [byte] := toList_append b [byte]

@[simp] theorem toList_truncate (b : Buffer) (n : Nat) :
    (b.truncate n).toList = b.toList.take n := by
  simp [toList, truncate, ByteArray.data_extract]

@[simp] theorem toList_reserve (b : Buffer) (n : Nat) : (b.reserve n).toList = b.toList := by
  simp [toList, bytes_reserve]

end Buffer

end SqlTemplate
