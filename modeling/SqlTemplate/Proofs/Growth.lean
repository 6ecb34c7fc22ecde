import SqlTemplate.Buffer
import Mathlib.Algebra.Ring.Nat

/-!
# Growing buffers

A buffer is written by calls. Each asks for room, and all but a bare request append the bytes that
they ask room for. The capacity changes only where there is no such room, and each change at least
doubles it. The changes of a run climb from its first capacity to its last
(`Buffer.climbs_growths`), and what is known of their number and of the bytes that they move follows
from that alone. No number on the way to a new capacity exceeds it, so that a run on machine words
is the same run as long as its last capacity fits (`Buffer.runWithin_eq`). Main statement:
`Buffer.run_amortized`.
-/

namespace SqlTemplate

namespace Buffer

/-! ### Calls -/

/-- A call on a buffer. A text is pushed, or written by a formatter. -/
inductive Call where
  | push (byte : UInt8)
  | extend (more : Bytes)
  | pushText (text : String)
  | write (text : String)
  | reserve (n : Nat)

namespace Call

/-- The bytes that a call appends. -/
def bytes : Call → Bytes
  | .push byte => [byte]
  | .extend more => more
  | .pushText text | .write text => utf8 text
  | .reserve _ => []

/-- The number of bytes that a call asks room for. -/
def room : Call → Nat
  | .reserve n => n
  | call => call.bytes.length

/-- The number of bytes that calls ask room for, taken together. -/
def requested (calls : List Call) : Nat := (calls.map room).sum

theorem length_bytes_le_room (call : Call) : call.bytes.length ≤ call.room := by
  cases call with
  | reserve n => exact Nat.zero_le n
  | _ => exact Nat.le_refl _

end Call

def perform (b : Buffer) : Call → Buffer
  | .push byte => b.push byte
  | .extend more => b.append more
  | .pushText text | .write text => b.pushText text
  | .reserve n => b.reserve n

def run (b : Buffer) (calls : List Call) : Buffer := calls.foldl perform b

theorem run_cons (b : Buffer) (call : Call) (rest : List Call) :
    b.run (call :: rest) = (b.perform call).run rest := rfl

theorem run_append (b : Buffer) (before after : List Call) :
    b.run (before ++ after) = (b.run before).run after := List.foldl_append

theorem length_toList (b : Buffer) : b.toList.length = b.size := rfl

theorem toList_perform (b : Buffer) (call : Call) :
    (b.perform call).toList = b.toList ++ call.bytes := by
  cases call with
  | reserve n => rw [perform, toList_reserve, Call.bytes, List.append_nil]
  | _ => exact toList_append b _

theorem size_perform (b : Buffer) (call : Call) :
    (b.perform call).size = b.size + call.bytes.length := by
  rw [← length_toList, toList_perform, List.length_append, length_toList]

/-- A run loses nothing. -/
theorem toList_run (b : Buffer) (calls : List Call) :
    (b.run calls).toList = b.toList ++ calls.flatMap Call.bytes := by
  induction calls generalizing b with
  | nil => exact (List.append_nil _).symm
  | cons call rest ih =>
    rw [run_cons, ih, toList_perform, List.append_assoc, List.flatMap_cons]

/-! ### One request -/

theorem capacity_perform (b : Buffer) (call : Call) :
    (b.perform call).capacity = (b.reserve call.room).capacity := by
  cases call <;> rfl

theorem capacity_perform_of_fits {b : Buffer} {call : Call} (h : b.size + call.room ≤ b.capacity) :
    (b.perform call).capacity = b.capacity := by
  have hfits : call.room ≤ b.capacity - b.bytes.size := Nat.le_sub_of_add_le' h
  rw [capacity_perform, reserve, if_pos hfits]

theorem capacity_perform_of_lt {b : Buffer} {call : Call} (h : b.capacity < b.size + call.room) :
    (b.perform call).capacity = grown b.capacity b.size call.room := by
  have hfull : ¬ call.room ≤ b.capacity - b.bytes.size := by
    have hle : b.bytes.size ≤ b.capacity := b.size_le
    have hlt : b.capacity < b.bytes.size + call.room := h
    omega
  rw [capacity_perform, reserve, if_neg hfull]
  rfl

theorem two_mul_le_grown (capacity size n : Nat) : 2 * capacity ≤ grown capacity size n := by
  simp only [grown, align]
  omega

/-- A change of the capacity to `next`, on a request for `room` bytes behind `size` others. -/
structure Growth where
  size : Nat
  room : Nat
  capacity : Nat
  next : Nat
  size_le : size ≤ capacity

/-- A change is made only where the room is missing. It gives at least twice the capacity, aligned
and with the room, and no more than twice what is needed before it is aligned. -/
structure Growth.Doubles (g : Growth) : Prop where
  needed : g.capacity < g.size + g.room
  aligned : align ∣ g.next
  doubled : 2 * g.capacity ≤ g.next
  roomy : g.size + g.room ≤ g.next
  tight : g.next < 2 * (g.size + g.room) + align

theorem Growth.doubles_grown {size room capacity : Nat} (hle : size ≤ capacity)
    (hneeded : capacity < size + room) :
    Growth.Doubles ⟨size, room, capacity, grown capacity size room, hle⟩ := by
  refine ⟨hneeded, Nat.dvd_mul_left _ _, two_mul_le_grown _ _ _, size_add_le_grown _ _ _, ?_⟩
  simp only [grown, align]
  omega

/-- The change of the capacity that a call brings about. -/
def growth? (b : Buffer) (call : Call) : Option Growth :=
  if (b.perform call).capacity = b.capacity then none
  else some ⟨b.size, call.room, b.capacity, (b.perform call).capacity, b.size_le⟩

theorem capacity_of_growth?_eq_none {b : Buffer} {call : Call} (h : b.growth? call = none) :
    (b.perform call).capacity = b.capacity := by
  unfold growth? at h
  split at h
  · assumption
  · cases h

theorem doubles_of_growth?_eq_some {b : Buffer} {call : Call} {g : Growth}
    (h : b.growth? call = some g) :
    g.Doubles ∧ g.capacity = b.capacity ∧ g.next = (b.perform call).capacity := by
  unfold growth? at h
  split at h
  · cases h
  · rename_i hchanged
    cases h
    refine ⟨?_, rfl, rfl⟩
    have hneeded : b.capacity < b.size + call.room :=
      Nat.lt_of_not_le fun hfits => hchanged (capacity_perform_of_fits hfits)
    rw [capacity_perform_of_lt hneeded]
    exact Growth.doubles_grown b.size_le hneeded

/-! ### The changes of a run -/

/-- The changes of the capacity in the course of a run, in order. -/
def growths (b : Buffer) : List Call → List Growth
  | [] => []
  | call :: rest => (b.growth? call).toList ++ (b.perform call).growths rest

/-- The number of bytes that changes of the capacity move, each all bytes that there are. -/
def moved (growths : List Growth) : Nat := (growths.map Growth.size).sum

/-- Changes that lead from one capacity to another. -/
inductive Climbs : Nat → List Growth → Nat → Prop
  | refl (capacity : Nat) : Climbs capacity [] capacity
  | grow {g : Growth} {rest : List Growth} {last : Nat} (hdoubles : g.Doubles)
      (hrest : Climbs g.next rest last) : Climbs g.capacity (g :: rest) last

theorem climbs_growths (b : Buffer) (calls : List Call) :
    Climbs b.capacity (b.growths calls) (b.run calls).capacity := by
  induction calls generalizing b with
  | nil => exact .refl _
  | cons call rest ih =>
    rw [growths, run_cons]
    cases hgrowth : b.growth? call with
    | none =>
      rw [← capacity_of_growth?_eq_none hgrowth]
      exact ih (b.perform call)
    | some g =>
      obtain ⟨hdoubles, hfrom, hto⟩ := doubles_of_growth?_eq_some hgrowth
      rw [← hfrom]
      exact .grow hdoubles (hto ▸ ih (b.perform call))

namespace Climbs

variable {first last : Nat} {growths : List Growth}

theorem doubles (h : Climbs first growths last) : ∀ g ∈ growths, g.Doubles := by
  induction h with
  | refl => exact fun g hmem => absurd hmem List.not_mem_nil
  | grow hdoubles _ ih => exact List.forall_mem_cons.mpr ⟨hdoubles, ih⟩

/-- A change moves at most as many bytes as it adds to the capacity. -/
theorem add_moved_le (h : Climbs first growths last) : first + moved growths ≤ last := by
  induction h with
  | refl capacity => exact Nat.le_refl capacity
  | @grow g rest last hdoubles _ ih =>
    have hmoved : moved (g :: rest) = g.size + moved rest := List.sum_cons
    have hsize := g.size_le
    have hdoubled := hdoubles.doubled
    omega

theorem two_pow_mul_le (h : Climbs first growths last) : 2 ^ growths.length * first ≤ last := by
  induction h with
  | refl capacity => exact Nat.le_of_eq (Nat.one_mul capacity)
  | @grow g rest last hdoubles _ ih =>
    calc 2 ^ (rest.length + 1) * g.capacity
        = 2 ^ rest.length * (2 * g.capacity) := by rw [Nat.pow_succ, Nat.mul_assoc]
      _ ≤ 2 ^ rest.length * g.next := Nat.mul_le_mul_left _ hdoubles.doubled
      _ ≤ last := ih

/-- Also from no capacity at all, as the first change gives at least the alignment. -/
theorem align_mul_two_pow_le {k : Nat} (h : Climbs first growths last)
    (hlength : growths.length = k + 1) : align * 2 ^ k ≤ last := by
  cases h with
  | refl => cases hlength
  | @grow g rest last hdoubles hrest =>
    have hk : rest.length = k := Nat.succ.inj hlength
    have hpos : 0 < g.next :=
      Nat.lt_of_lt_of_le (Nat.zero_lt_of_lt hdoubles.needed) hdoubles.roomy
    calc align * 2 ^ k
        = 2 ^ rest.length * align := by rw [hk, Nat.mul_comm]
      _ ≤ 2 ^ rest.length * g.next :=
          Nat.mul_le_mul_left _ (Nat.le_of_dvd hpos hdoubles.aligned)
      _ ≤ last := hrest.two_pow_mul_le

end Climbs

theorem capacity_le_run (b : Buffer) (calls : List Call) : b.capacity ≤ (b.run calls).capacity :=
  Nat.le_of_add_right_le (b.climbs_growths calls).add_moved_le

/-- Calls that ask for no more than there is room for leave the capacity as it is. -/
theorem capacity_run_of_fits {b : Buffer} {calls : List Call}
    (h : b.size + Call.requested calls ≤ b.capacity) : (b.run calls).capacity = b.capacity := by
  induction calls generalizing b with
  | nil => rfl
  | cons call rest ih =>
    have hrequested : Call.requested (call :: rest) = call.room + Call.requested rest :=
      List.sum_cons
    have hkept : (b.perform call).capacity = b.capacity := capacity_perform_of_fits (by omega)
    have hsize := b.size_perform call
    have hbytes := call.length_bytes_le_room
    rw [run_cons, ← hkept]
    exact ih (by omega)

/-! ### Machine words -/

/-- A number that fits a machine word, the largest of which is `limit`. -/
def inWord (limit n : Nat) : Option Nat := if n ≤ limit then some n else none

/-- `grown`, as long as every number on the way to it fits a machine word. -/
def grownWithin (limit capacity size n : Nat) : Option Nat := do
  let doubled ← inWord limit (2 * capacity)
  let added ← inWord limit (capacity + max n (capacity / 2))
  let needed ← inWord limit (size + n)
  inWord limit ((max (max doubled added) needed + (align - 1)) / align * align)

/-- `perform`, as long as the numbers of a change of the capacity fit. -/
def performWithin (limit : Nat) (b : Buffer) (call : Call) : Option Buffer :=
  if call.room ≤ b.capacity - b.size then some (b.perform call)
  else (grownWithin limit b.capacity b.size call.room).map fun _ => b.perform call

/-- `run`, as long as the numbers of all changes of the capacity fit. -/
def runWithin (limit : Nat) (b : Buffer) (calls : List Call) : Option Buffer :=
  calls.foldlM (performWithin limit) b

theorem inWord_bind {α : Type} (limit n : Nat) (f : Nat → Option α) :
    (inWord limit n >>= f) = if n ≤ limit then f n else none := by
  unfold inWord
  split <;> rfl

theorem grownWithin_eq (limit capacity size n : Nat) :
    grownWithin limit capacity size n = inWord limit (grown capacity size n) := by
  have hdoubled := two_mul_le_grown capacity size n
  have hneeded := size_add_le_grown capacity size n
  have hadded : capacity + max n (capacity / 2) ≤ grown capacity size n := by
    simp only [grown, align]
    omega
  simp only [grownWithin, inWord_bind]
  by_cases hfits : grown capacity size n ≤ limit
  · rw [if_pos (Nat.le_trans hdoubled hfits), if_pos (Nat.le_trans hadded hfits),
      if_pos (Nat.le_trans hneeded hfits)]
    rfl
  · -- whichever number is the first that does not fit, the last one does not
    have hnone : inWord limit (grown capacity size n) = none := if_neg hfits
    rw [hnone]
    split_ifs <;> first | rfl | exact hnone

theorem performWithin_eq {limit : Nat} {b : Buffer} (h : b.capacity ≤ limit) (call : Call) :
    b.performWithin limit call
      = if (b.perform call).capacity ≤ limit then some (b.perform call) else none := by
  have hsize : b.size ≤ b.capacity := b.size_le
  unfold performWithin
  by_cases hfits : call.room ≤ b.capacity - b.size
  · have hkept : (b.perform call).capacity = b.capacity := capacity_perform_of_fits (by omega)
    rw [if_pos hfits, hkept, if_pos h]
  · have hgrown : (b.perform call).capacity = grown b.capacity b.size call.room :=
      capacity_perform_of_lt (by omega)
    rw [if_neg hfits, grownWithin_eq, hgrown, inWord]
    split <;> rfl

theorem runWithin_eq {limit : Nat} {b : Buffer} (h : b.capacity ≤ limit) (calls : List Call) :
    b.runWithin limit calls
      = if (b.run calls).capacity ≤ limit then some (b.run calls) else none := by
  induction calls generalizing b with
  | nil => exact (if_pos h).symm
  | cons call rest ih =>
    have hstep : b.runWithin limit (call :: rest)
        = b.performWithin limit call >>= fun b' => b'.runWithin limit rest := List.foldlM_cons
    rw [hstep, performWithin_eq h, run_cons]
    by_cases hnext : (b.perform call).capacity ≤ limit
    · rw [if_pos hnext]
      exact ih hnext
    · -- a capacity that does not fit is followed by none that does
      have hlast := (b.perform call).capacity_le_run rest
      rw [if_neg hnext, if_neg (by omega)]
      rfl

/-! ### Every run of calls -/

/-- Whatever the buffer at the start and the calls on it, its bytes are those at the start and then
all that was appended, in order. The capacity is never less than their number, and never decreases.
Each change of it is made for want of room and doubles it, so that `k + 1` changes lead at least to
`2 ^ k` times the alignment, also from no capacity at all, and all of them together move no more
bytes than they add to the capacity. After a request for `n` bytes, calls that append no more than
that leave the capacity as it is, and so do further requests within it. A machine word is large
enough for the run iff it holds the last capacity. -/
theorem run_amortized (start : Buffer) (calls : List Call) :
    let final := start.run calls
    let growths := start.growths calls
    final.toList = start.toList ++ calls.flatMap Call.bytes ∧
    (∀ before, before <+: calls → (start.run before).size ≤ (start.run before).capacity ∧
      (start.run before).capacity ≤ final.capacity) ∧
    (∀ g ∈ growths, g.Doubles) ∧
    (∀ k, growths.length = k + 1 → align * 2 ^ k ≤ final.capacity) ∧
    start.capacity + moved growths ≤ final.capacity ∧
    (∀ n more, Call.requested more ≤ n →
      ((final.reserve n).run more).capacity = (final.reserve n).capacity) ∧
    ∀ limit, start.capacity ≤ limit →
      start.runWithin limit calls = if final.capacity ≤ limit then some final else none := by
  intro final growths
  have hclimbs : Climbs start.capacity growths final.capacity := start.climbs_growths calls
  refine ⟨start.toList_run calls, ?_, hclimbs.doubles, fun k => hclimbs.align_mul_two_pow_le,
    hclimbs.add_moved_le, ?_, fun limit hlimit => runWithin_eq hlimit calls⟩
  · rintro before ⟨after, rfl⟩
    refine ⟨(start.run before).size_le, ?_⟩
    have hle := (start.run before).capacity_le_run after
    rwa [← run_append] at hle
  · intro n more hmore
    have hroom : final.size + n ≤ (final.reserve n).capacity := final.size_add_le_capacity_reserve n
    have hsize : (final.reserve n).size = final.size :=
      congrArg ByteArray.size (final.bytes_reserve n)
    exact capacity_run_of_fits (by omega)

/-- Two requests are met by the capacity at the start, two are not, and the last one is. Thirty more
bytes are then asked for at once and appended in two parts. -/
theorem run_amortized_reserved :
    let start := withCapacity 10
    let calls : List Call := [.reserve 4, .pushText "0123456789", .reserve 1,
      .write "abcdefghijklmnopqrstuvwxyz", .push 0x2E]
    let final := start.run calls
    let more : List Call := [.extend (utf8 "ABCDEFGHIJKLMNOPQRSTUVWXYZ123"), .push 0x2E]
    final.toList = utf8 "0123456789abcdefghijklmnopqrstuvwxyz." ∧
    (start.growths calls).map (fun g => (g.capacity, g.next)) = [(10, 24), (24, 56)] ∧
    (∀ g ∈ start.growths calls, g.Doubles) ∧
    final.capacity = 56 ∧ 10 ≤ final.capacity ∧ 8 * 2 ^ 1 ≤ final.capacity ∧
    10 + (10 + 10) ≤ final.capacity ∧
    ((final.reserve 30).run more).capacity = (final.reserve 30).capacity ∧
    start.runWithin 56 calls = some final ∧ start.runWithin 55 calls = none := by
  intro start calls final more
  obtain ⟨hbytes, hbefore, hdoubles, hcount, hmoved, hkept, hwords⟩ := start.run_amortized calls
  obtain ⟨hgrowths, hlength, hsum, hcapacity⟩ :
      (start.growths calls).map (fun g => (g.capacity, g.next)) = [(10, 24), (24, 56)] ∧
        (start.growths calls).length = 1 + 1 ∧ moved (start.growths calls) = 10 + 10 ∧
        final.capacity = 56 := by
    decide +kernel
  have hmore : Call.requested more ≤ 30 := by decide
  refine ⟨hbytes.trans rfl, hgrowths, hdoubles, hcapacity,
    (hbefore [] (List.nil_prefix)).2, hcount 1 hlength, hsum ▸ hmoved, hkept 30 more hmore, ?_, ?_⟩
  · exact (hwords 56 (by decide)).trans (if_pos (Nat.le_of_eq hcapacity))
  · exact (hwords 55 (by decide)).trans (if_neg (hcapacity ▸ by decide))

end Buffer

end SqlTemplate
