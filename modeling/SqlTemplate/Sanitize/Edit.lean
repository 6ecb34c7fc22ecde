import SqlTemplate.Buffer

/-!
# Edits

A list of edits replaces parts of the tail of a buffer. It is carried out in place: the parts that
stay are moved within the buffer, those that move left from front to back and those that move right
from back to front, so that none is overwritten before it is moved; then the inserted bytes are
written into the gaps.
-/

namespace SqlTemplate

/-- Replaces the `removed` bytes at position `start` by `inserted`. -/
structure Edit where
  start : Nat
  removed : Nat
  inserted : Bytes
deriving DecidableEq, Repr

/-- A part of the tail that stays, before and after the edits. -/
structure Span where
  source : Nat
  target : Nat
  length : Nat
deriving DecidableEq, Repr

/-- Bytes to be written at a position of the edited tail. -/
structure Insertion where
  target : Nat
  bytes : Bytes
deriving DecidableEq, Repr

namespace Edit

/-- The length of a tail of `length` bytes after the edits. -/
def newLength (length : Nat) (edits : List Edit) : Nat :=
  edits.foldl (fun length edit => length + edit.inserted.length - edit.removed) length

/-- The parts of a tail of `length` bytes that stay, from old position `source` and new position
`target` on. -/
def spans (length source target : Nat) : List Edit → List Span
  | [] => [⟨source, target, length - source⟩]
  | edit :: rest =>
    let kept := edit.start - source
    ⟨source, target, kept⟩ ::
      spans length (edit.start + edit.removed) (target + kept + edit.inserted.length) rest

/-- Where the inserted bytes stand after the edits. -/
def insertions (source target : Nat) : List Edit → List Insertion
  | [] => []
  | edit :: rest =>
    let place := target + (edit.start - source)
    ⟨place, edit.inserted⟩ ::
      insertions (edit.start + edit.removed) (place + edit.inserted.length) rest

end Edit

/-- Copies a span of the tail that starts at `start` within the buffer. -/
def Span.move (start : Nat) (bytes : ByteArray) (span : Span) : ByteArray :=
  bytes.copySlice (start + span.source) bytes (start + span.target) span.length

/-- Writes bytes over those from position `place` on. -/
def overwrite (bytes : ByteArray) (place : Nat) : Bytes → ByteArray
  | [] => bytes
  | b :: rest => overwrite (bytes.set! place b) (place + 1) rest

/-- Lengthens a byte sequence to `size` bytes with zeros. -/
def extendTo (bytes : ByteArray) (size : Nat) : ByteArray :=
  bytes ++ (List.replicate (size - bytes.size) (0 : UInt8)).toByteArray

/-- The content of a buffer after edits to its tail from position `start` on. -/
def editBytes (bytes : ByteArray) (start : Nat) (edits : List Edit) : ByteArray :=
  let oldLength := bytes.size - start
  let newLength := Edit.newLength oldLength edits
  let spans := Edit.spans oldLength 0 0 edits
  let grown := extendTo bytes (start + newLength)
  let leftMoved :=
    (spans.filter fun span => span.target < span.source && 0 < span.length).foldl
      (Span.move start) grown
  let moved :=
    (spans.reverse.filter fun span => span.source < span.target && 0 < span.length).foldl
      (Span.move start) leftMoved
  let written := (Edit.insertions 0 0 edits).foldl
    (fun bytes insertion => overwrite bytes (start + insertion.target) insertion.bytes) moved
  written.extract 0 (start + newLength)

namespace Buffer

/-- Applies edits to the tail from position `start` on. -/
def edit (b : Buffer) (start : Nat) (edits : List Edit) : Buffer :=
  let oldLength := b.size - start
  let room := b.reserve (Edit.newLength oldLength edits - oldLength)
  let bytes := editBytes b.bytes start edits
  ⟨bytes, max room.capacity bytes.size, Nat.le_max_right _ _⟩

end Buffer

end SqlTemplate
