import SqlTemplate.Proofs.Fitting

/-!
# Editing within bounds

`editBytes` subtracts positions with the subtraction that stops at zero, and a copy or a write that
does not fit would be cut off in silence. `guardedEditBytes` is the same run with a guard at each of
these steps: a difference is only taken from a number that is at least as large, and bytes are only
copied or written where both ends lie within the buffer. For edits in order no guard fails, so that
the guarded run ends, with the bytes of the unguarded one. Main statement: `sanitize_within_bounds`.
-/

namespace SqlTemplate

/-! ### Guarded steps -/

/-- The difference of a number and one that is no greater. -/
def difference (m n : Nat) : Option Nat := if n ≤ m then some (m - n) else none

theorem difference_eq_some {m n : Nat} (h : n ≤ m) : difference m n = some (m - n) := if_pos h

section Guard

variable {α : Type} (fits : Nat → α → Prop) [∀ size x, Decidable (fits size x)]
  (step : ByteArray → α → ByteArray)

/-- A step within a buffer, taken only if it fits the size of the buffer. -/
def guarded (bytes : ByteArray) (x : α) : Option ByteArray :=
  if fits bytes.size x then some (step bytes x) else none

variable {fits step}

/-- Steps that keep the size all fit if each fits at the start. -/
theorem foldlM_guarded (hsize : ∀ bytes x, fits bytes.size x → (step bytes x).size = bytes.size)
    {xs : List α} {bytes : ByteArray} (hfits : ∀ x ∈ xs, fits bytes.size x) :
    xs.foldlM (guarded fits step) bytes = some (xs.foldl step bytes) ∧
      (xs.foldl step bytes).size = bytes.size := by
  induction xs generalizing bytes with
  | nil => exact ⟨rfl, rfl⟩
  | cons x rest ih =>
    have hfirst := hfits x List.mem_cons_self
    have hkeeps := hsize bytes x hfirst
    obtain ⟨hrun, hend⟩ := @ih (step bytes x) fun y hmem =>
      hkeeps ▸ hfits y (List.mem_cons_of_mem _ hmem)
    refine ⟨?_, hend.trans hkeeps⟩
    rw [List.foldlM_cons, guarded, if_pos hfirst]
    exact hrun

end Guard

instance (start size : Nat) (span : Span) : Decidable (span.Within start size) :=
  inferInstanceAs (Decidable (_ ∧ _))

namespace Insertion

/-- An insertion lies within `size` bytes, for a tail that starts at `start`. -/
def Within (start size : Nat) (insertion : Insertion) : Prop :=
  start + insertion.target + insertion.bytes.length ≤ size

instance (start size : Nat) (insertion : Insertion) : Decidable (insertion.Within start size) :=
  inferInstanceAs (Decidable (_ ≤ _))

/-- Writes an insertion into the tail that starts at `start`. -/
def write (start : Nat) (bytes : ByteArray) (insertion : Insertion) : ByteArray :=
  overwrite bytes (start + insertion.target) insertion.bytes

end Insertion

/-! ### Guarded positions -/

namespace Edit

/-- `Edit.newLength`, as long as no edit removes more than there is. -/
def guardedNewLength (length : Nat) (edits : List Edit) : Option Nat :=
  edits.foldlM (fun length edit => difference (length + edit.inserted.length) edit.removed) length

/-- `Edit.spans`, as long as no edit starts before the end of the one before it. -/
def guardedSpans (length source target : Nat) : List Edit → Option (List Span)
  | [] => do
    let kept ← difference length source
    return [⟨source, target, kept⟩]
  | edit :: rest => do
    let kept ← difference edit.start source
    let others ← guardedSpans length (edit.start + edit.removed)
      (target + kept + edit.inserted.length) rest
    return ⟨source, target, kept⟩ :: others

/-- `Edit.insertions`, as long as no edit starts before the end of the one before it. -/
def guardedInsertions (source target : Nat) : List Edit → Option (List Insertion)
  | [] => some []
  | edit :: rest => do
    let kept ← difference edit.start source
    let others ← guardedInsertions (edit.start + edit.removed)
      (target + kept + edit.inserted.length) rest
    return ⟨target + kept, edit.inserted⟩ :: others

/-- Edits in order never remove more than there is: the length before an edit counts what stands
from its start on. -/
theorem guardedNewLength_eq {length source : Nat} {edits : List Edit}
    (h : InOrder length source edits) (target : Nat) :
    guardedNewLength (target + (length - source)) edits
      = some (newLength (target + (length - source)) edits) := by
  induction edits generalizing source target with
  | nil => rfl
  | cons edit rest ih =>
    obtain ⟨hstart, hrest⟩ := h
    have hend := hrest.source_le
    have hleft : target + (length - source) + edit.inserted.length - edit.removed
        = target + (edit.start - source) + edit.inserted.length
            + (length - (edit.start + edit.removed)) := by omega
    have hrun := ih hrest (target + (edit.start - source) + edit.inserted.length)
    rw [← hleft] at hrun
    rw [guardedNewLength, List.foldlM_cons, difference_eq_some (by omega)]
    exact hrun

theorem guardedSpans_eq {length source : Nat} {edits : List Edit}
    (h : InOrder length source edits) (target : Nat) :
    guardedSpans length source target edits = some (spans length source target edits) := by
  induction edits generalizing source target with
  | nil =>
    rw [guardedSpans, difference_eq_some h]
    rfl
  | cons edit rest ih =>
    rw [guardedSpans, difference_eq_some h.1, Option.bind_eq_bind, Option.bind_some, ih h.2]
    rfl

theorem guardedInsertions_eq {length source : Nat} {edits : List Edit}
    (h : InOrder length source edits) (target : Nat) :
    guardedInsertions source target edits = some (insertions source target edits) := by
  induction edits generalizing source target with
  | nil => rfl
  | cons edit rest ih =>
    rw [guardedInsertions, difference_eq_some h.1, Option.bind_eq_bind, Option.bind_some, ih h.2]
    rfl

/-- Edits in order follow each other without overlap. -/
theorem InOrder.pairwise {length source : Nat} {edits : List Edit}
    (h : InOrder length source edits) :
    edits.Pairwise (fun a b => a.start + a.removed ≤ b.start) ∧
      ∀ edit ∈ edits, source ≤ edit.start ∧ edit.start + edit.removed ≤ length := by
  induction edits generalizing source with
  | nil => simp
  | cons edit rest ih =>
    obtain ⟨hpairwise, hwithin⟩ := ih h.2
    have hend := h.2.source_le
    refine ⟨List.pairwise_cons.mpr ⟨fun other hmem => (hwithin other hmem).1, hpairwise⟩,
      List.forall_mem_cons.mpr ⟨⟨h.1, hend⟩, fun other hmem => ?_⟩⟩
    obtain ⟨hafter, hinside⟩ := hwithin other hmem
    have hstart := h.1
    exact ⟨by omega, hinside⟩

end Edit

/-! ### The guarded run -/

/-- The moves of spans, each within the buffer. -/
def Span.guardedMoves (start : Nat) (spans : List Span) (bytes : ByteArray) : Option ByteArray :=
  spans.foldlM (guarded (fun size span => span.Within start size) (Span.move start)) bytes

/-- The writes of insertions, each within the buffer. -/
def Insertion.guardedWrites (start : Nat) (insertions : List Insertion) (bytes : ByteArray) :
    Option ByteArray :=
  insertions.foldlM (guarded (fun size insertion => insertion.Within start size) (write start)) bytes

/-- `editBytes` with a guard at every difference, copy and write. -/
def guardedEditBytes (bytes : ByteArray) (start : Nat) (edits : List Edit) : Option ByteArray := do
  let oldLength ← difference bytes.size start
  let newLength ← Edit.guardedNewLength oldLength edits
  let spans ← Edit.guardedSpans oldLength 0 0 edits
  let insertions ← Edit.guardedInsertions 0 0 edits
  let moved ← Span.guardedMoves start (Span.moves spans) (extendTo bytes (start + newLength))
  let written ← Insertion.guardedWrites start insertions moved
  return written.extract 0 (start + newLength)

theorem Span.guardedMoves_eq {start : Nat} {spans : List Span} {bytes : ByteArray}
    (h : ∀ span ∈ spans, span.Within start bytes.size) :
    guardedMoves start spans bytes = some (spans.foldl (Span.move start) bytes) ∧
      (spans.foldl (Span.move start) bytes).size = bytes.size :=
  foldlM_guarded (fun _ _ => size_move) h

theorem Insertion.guardedWrites_eq {start : Nat} {insertions : List Insertion} {bytes : ByteArray}
    (h : ∀ insertion ∈ insertions, insertion.Within start bytes.size) :
    guardedWrites start insertions bytes = some (insertions.foldl (write start) bytes) :=
  (foldlM_guarded (fun _ _ => size_overwrite) h).1

/-- No guard fails for edits in order. -/
theorem guardedEditBytes_eq {bytes : ByteArray} {start : Nat} {edits : List Edit}
    (hstart : start ≤ bytes.size) (h : Edit.InOrder (bytes.size - start) 0 edits) :
    guardedEditBytes bytes start edits = some (editBytes bytes start edits) := by
  have hnewLength := Edit.guardedNewLength_eq h 0
  rw [Nat.sub_zero, Nat.zero_add] at hnewLength
  obtain ⟨hmoved, hsize⟩ := Span.guardedMoves_eq fun span hmem =>
    span_within_extendTo hstart h (Span.mem_moves.mp hmem).1
  have hwritten : Insertion.guardedWrites start (Edit.insertions 0 0 edits)
      (movedBytes bytes start edits) = some (writtenBytes bytes start edits) :=
    Insertion.guardedWrites_eq fun insertion hmem => by
      rw [movedBytes, hsize]
      exact insertion_end_le_extendTo h hmem
  simp only [guardedEditBytes, difference_eq_some hstart, hnewLength, Edit.guardedSpans_eq h,
    Edit.guardedInsertions_eq h, hmoved, Option.bind_eq_bind, Option.bind_some]
  rw [← movedBytes, hwritten, editBytes_eq]
  rfl

/-- Without edits the bytes stay as they are. -/
theorem editBytes_nil {bytes : ByteArray} {start : Nat} (hstart : start ≤ bytes.size) :
    editBytes bytes start [] = bytes := by
  have horder : Edit.InOrder (bytes.size - start) 0 [] := Nat.zero_le _
  have hlist := toList_editBytes hstart horder
  rw [Edit.rebuild, List.take_append_drop] at hlist
  exact ByteArray.ext (Array.toList_inj.mp hlist)

/-! ### The edits of an accepted text -/

theorem Buffer.sanitize_of_readAll {b : Buffer} {start : Nat} (hstart : start ≤ b.size)
    (qualifier : Option String) {s : Settings} {mode : SafeMode} {lexemes : List Lexeme}
    (hread : Lexeme.readAll s.usesBackslashEscapes mode 0 (b.tail start) = .ok lexemes) :
    ∃ out, b.sanitize start qualifier s mode = .ok out ∧ out.bytes = editBytes b.bytes start
      (Lexeme.editsFrom s (Name.lead s.nameQuote qualifier) false false 0 lexemes) := by
  unfold Buffer.sanitize
  dsimp only
  rw [hread]
  dsimp only
  split
  · rename_i hnone
    rw [hnone]
    exact ⟨b, rfl, (editBytes_nil hstart).symm⟩
  · exact ⟨_, rfl, rfl⟩

/-- The edits of a tail that is read are in order and stay inside the tail. Carrying them out takes
no difference that would be negative and no copy or write beyond the buffer. It leaves the bytes
before the tail as they were, followed by the tail as a rebuild from left to right gives it. -/
theorem sanitize_within_bounds {b : Buffer} {start : Nat} (hstart : start ≤ b.size)
    (qualifier : Option String) (s : Settings) (mode : SafeMode) {lexemes : List Lexeme}
    (hread : Lexeme.readAll s.usesBackslashEscapes mode 0 (b.tail start) = .ok lexemes) :
    let edits := Lexeme.editsFrom s (Name.lead s.nameQuote qualifier) false false 0 lexemes
    edits.Pairwise (fun first second => first.start + first.removed ≤ second.start) ∧
    (∀ edit ∈ edits, edit.start + edit.removed ≤ (b.tail start).length) ∧
    ∃ out, b.sanitize start qualifier s mode = .ok out ∧
      guardedEditBytes b.bytes start edits = some out.bytes ∧
      out.toList = b.toList.take start ++ Edit.rebuild 0 (b.tail start) edits := by
  intro edits
  obtain ⟨horder, -⟩ := Lexeme.rebuild_of_readAll hread s (Name.lead s.nameQuote qualifier)
  obtain ⟨hpairwise, hwithin⟩ := horder.pairwise
  obtain ⟨out, hout, hbytes⟩ := Buffer.sanitize_of_readAll hstart qualifier hread
  rw [Buffer.length_tail] at horder
  refine ⟨hpairwise, fun edit hmem => (hwithin edit hmem).2, out, hout, ?_, ?_⟩
  · rw [hbytes]
    exact guardedEditBytes_eq hstart horder
  · rw [Buffer.toList, hbytes]
    exact toList_editBytes hstart horder

/-- A literal that becomes shorter, a name that becomes longer and a gap that is closed, after a
front that stays. -/
theorem sanitize_within_bounds_mssql :
    let s := Settings.ofDialect .mssql
    let b := Buffer.ofText "WHERE x'00' = blob AND  count (n) > 1"
    let lexemes : List Lexeme :=
      [.hexString 0x78 (utf8 "00"), .space [Byte.space], .mark 0x3D, .space [Byte.space],
        .word (utf8 "blob"), .space [Byte.space], .word (utf8 "AND"),
        .space [Byte.space, Byte.space], .word (utf8 "count"), .space [Byte.space],
        .mark Byte.openParen, .word (utf8 "n"), .mark Byte.closeParen, .space [Byte.space],
        .mark Byte.greater, .space [Byte.space], .number (utf8 "1")]
    6 ≤ b.size ∧ Lexeme.readAll s.usesBackslashEscapes .chunk 0 (b.tail 6) = .ok lexemes ∧
    ∃ out, b.sanitize 6 (some "t") s .chunk = .ok out ∧
      guardedEditBytes b.bytes 6
          (Lexeme.editsFrom s (Name.lead s.nameQuote (some "t")) false false 0 lexemes)
        = some out.bytes ∧
      out.toList = utf8 "WHERE 0x00 = \"t\".\"blob\" AND  count(\"t\".\"n\") > 1" := by
  intro s b lexemes
  have hstart : 6 ≤ b.size := by decide +kernel
  have hread : Lexeme.readAll s.usesBackslashEscapes .chunk 0 (b.tail 6) = .ok lexemes := by
    decide +kernel
  obtain ⟨-, -, out, hout, hguarded, hlist⟩ :=
    sanitize_within_bounds hstart (some "t") s .chunk hread
  refine ⟨hstart, hread, out, hout, hguarded, hlist.trans ?_⟩
  decide +kernel

end SqlTemplate
