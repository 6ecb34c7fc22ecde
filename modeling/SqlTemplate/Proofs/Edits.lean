import Mathlib.Data.List.Pairwise
import SqlTemplate.Sanitize.Edit

/-!
# Editing in place

Edits are carried out by moving parts of the buffer over each other. Here that is shown to have the
effect one would expect: the bytes before the tail stay, and the tail becomes what a rebuild from
left to right into fresh memory gives, each removed part replaced by the inserted bytes. The reason
is that no part is overwritten before it is moved. It rests on one relation between two moves,
`Span.Spares`, which holds between any two spans in the order in which they are moved.
-/

namespace SqlTemplate

/-! ### Edits in order -/

namespace Edit

/-- Edits that follow each other without overlap, from position `source` on, within `length`
bytes. -/
def InOrder (length source : Nat) : List Edit → Prop
  | [] => source ≤ length
  | edit :: rest => source ≤ edit.start ∧ InOrder length (edit.start + edit.removed) rest

/-- The text from position `source` on with each removed part replaced by the inserted bytes. -/
def rebuild (source : Nat) (text : Bytes) : List Edit → Bytes
  | [] => text
  | edit :: rest =>
    let kept := edit.start - source
    text.take kept ++ edit.inserted ++
      rebuild (edit.start + edit.removed) (text.drop (kept + edit.removed)) rest

theorem InOrder.source_le {length source : Nat} {edits : List Edit}
    (h : InOrder length source edits) : source ≤ length := by
  induction edits generalizing source with
  | nil => exact h
  | cons edit rest ih =>
    have hrest := ih h.2
    have hstart := h.1
    omega

theorem InOrder.length_drop {length source : Nat} {edit : Edit} {rest : List Edit} {text : Bytes}
    (h : InOrder length source (edit :: rest)) (hlen : text.length = length - source) :
    (text.drop (edit.start - source + edit.removed)).length
      = length - (edit.start + edit.removed) := by
  have hstart := h.1
  rw [List.length_drop, hlen]
  omega

theorem length_rebuild {length source : Nat} {text : Bytes} (edits : List Edit)
    (h : InOrder length source edits) (hlen : text.length = length - source) (target : Nat) :
    newLength (target + (length - source)) edits
      = target + (rebuild source text edits).length := by
  induction edits generalizing source text target with
  | nil => simp [newLength, rebuild, hlen]
  | cons edit rest ih =>
    have hdrop := h.length_drop hlen
    obtain ⟨hstart, hrest⟩ := h
    have hend := hrest.source_le
    have hfold : newLength (target + (length - source)) (edit :: rest)
        = newLength (target + (edit.start - source) + edit.inserted.length
            + (length - (edit.start + edit.removed))) rest := by
      simp only [newLength, List.foldl_cons]
      congr 1
      omega
    rw [hfold, ih hrest hdrop]
    simp only [rebuild, List.length_append, List.length_take, hlen]
    omega

/-! ### Where the parts stand -/

theorem le_of_mem_spans {length source target : Nat} {edits : List Edit}
    (h : InOrder length source edits) {span : Span}
    (hmem : span ∈ spans length source target edits) :
    source ≤ span.source ∧ target ≤ span.target := by
  induction edits generalizing source target with
  | nil =>
    simp only [spans, List.mem_singleton] at hmem
    simp [hmem]
  | cons edit rest ih =>
    rcases List.mem_cons.mp hmem with rfl | hmem
    · simp
    · have hle := ih h.2 hmem
      have hstart := h.1
      omega

theorem le_of_mem_insertions {source target : Nat} {edits : List Edit} {insertion : Insertion}
    (hmem : insertion ∈ insertions source target edits) : target ≤ insertion.target := by
  induction edits generalizing source target with
  | nil => simp [insertions] at hmem
  | cons edit rest ih =>
    rcases List.mem_cons.mp hmem with rfl | hmem
    · simp
    · have hle := ih hmem
      omega

theorem source_add_length_le {length source target : Nat} {edits : List Edit}
    (h : InOrder length source edits) {span : Span}
    (hmem : span ∈ spans length source target edits) :
    span.source + span.length ≤ length := by
  induction edits generalizing source target with
  | nil =>
    simp only [spans, List.mem_singleton] at hmem
    have hle : source ≤ length := h
    simp only [hmem]
    omega
  | cons edit rest ih =>
    rcases List.mem_cons.mp hmem with rfl | hmem
    · have hend := h.2.source_le
      have hstart := h.1
      show source + (edit.start - source) ≤ length
      omega
    · exact ih h.2 hmem

theorem target_add_length_le {length source target : Nat} {text : Bytes} {edits : List Edit}
    (h : InOrder length source edits) (hlen : text.length = length - source) {span : Span}
    (hmem : span ∈ spans length source target edits) :
    span.target + span.length ≤ target + (rebuild source text edits).length := by
  induction edits generalizing source target text with
  | nil =>
    simp only [spans, List.mem_singleton] at hmem
    simp [hmem, rebuild, hlen]
  | cons edit rest ih =>
    have hend := h.2.source_le
    have hstart := h.1
    have hdrop := h.length_drop hlen
    simp only [rebuild, List.length_append, List.length_take, hlen]
    rcases List.mem_cons.mp hmem with rfl | hmem
    · dsimp only
      omega
    · have hle := ih h.2 hdrop hmem
      omega

theorem insertion_end_le {length source target : Nat} {text : Bytes} {edits : List Edit}
    (h : InOrder length source edits) (hlen : text.length = length - source)
    {insertion : Insertion} (hmem : insertion ∈ insertions source target edits) :
    insertion.target + insertion.bytes.length ≤ target + (rebuild source text edits).length := by
  induction edits generalizing source target text with
  | nil => simp [insertions] at hmem
  | cons edit rest ih =>
    have hend := h.2.source_le
    have hstart := h.1
    have hdrop := h.length_drop hlen
    simp only [rebuild, List.length_append, List.length_take, hlen]
    rcases List.mem_cons.mp hmem with rfl | hmem
    · dsimp only
      omega
    · have hle := ih h.2 hdrop hmem
      omega

end Edit

/-- One span stands before another, in the old text and in the new one. -/
def Span.Before (a b : Span) : Prop :=
  a.source + a.length ≤ b.source ∧ a.target + a.length ≤ b.target

theorem Edit.pairwise_spans {length source : Nat} (target : Nat) {edits : List Edit}
    (h : InOrder length source edits) :
    (spans length source target edits).Pairwise Span.Before := by
  induction edits generalizing source target with
  | nil => exact List.pairwise_singleton _ _
  | cons edit rest ih =>
    refine List.pairwise_cons.mpr ⟨?_, ih _ h.2⟩
    intro span hmem
    have hle := le_of_mem_spans h.2 hmem
    have hstart := h.1
    simp only [Span.Before]
    omega

theorem Edit.pairwise_insertions (source target : Nat) (edits : List Edit) :
    (insertions source target edits).Pairwise
      fun a b => a.target + a.bytes.length ≤ b.target := by
  induction edits generalizing source target with
  | nil => exact List.Pairwise.nil
  | cons edit rest ih =>
    exact List.pairwise_cons.mpr ⟨fun _ hmem => le_of_mem_insertions hmem, ih _ _⟩

/-- What is inserted stands clear of what stays. -/
theorem Edit.span_insertion_apart {length source target : Nat} {edits : List Edit}
    (h : InOrder length source edits) {span : Span} {insertion : Insertion}
    (hspan : span ∈ spans length source target edits)
    (hins : insertion ∈ insertions source target edits) :
    span.target + span.length ≤ insertion.target
      ∨ insertion.target + insertion.bytes.length ≤ span.target := by
  induction edits generalizing source target with
  | nil => simp [insertions] at hins
  | cons edit rest ih =>
    rcases List.mem_cons.mp hspan with rfl | hspan <;> rcases List.mem_cons.mp hins with rfl | hins
    · exact Or.inl (Nat.le_refl _)
    · have hle := le_of_mem_insertions hins
      left
      show target + (edit.start - source) ≤ insertion.target
      omega
    · exact Or.inr (le_of_mem_spans h.2 hspan).2
    · exact ih h.2 hspan hins

/-! ### Writing over a part of a text -/

/-- The text with `content` written over it from position `place` on. -/
def overlay (place : Nat) (content text : Bytes) : Bytes :=
  text.take place ++ content ++ text.drop (place + content.length)

theorem length_overlay {place : Nat} {content text : Bytes}
    (h : place + content.length ≤ text.length) :
    (overlay place content text).length = text.length := by
  simp only [overlay, List.length_append, List.length_take, List.length_drop]
  omega

theorem overlay_inside {place : Nat} {content text : Bytes}
    (h : place + content.length ≤ text.length) {k : Nat} (hk : k < content.length) :
    (overlay place content text)[place + k]? = content[k]? := by
  have htake : (text.take place).length = place := by
    rw [List.length_take]
    omega
  rw [overlay, List.append_assoc, List.getElem?_append_right (by omega), htake,
    Nat.add_sub_cancel_left, List.getElem?_append_left hk]

theorem overlay_outside {place : Nat} {content text : Bytes}
    (h : place + content.length ≤ text.length) {i : Nat}
    (hi : i < place ∨ place + content.length ≤ i) :
    (overlay place content text)[i]? = text[i]? := by
  have htake : (text.take place).length = place := by
    rw [List.length_take]
    omega
  rw [overlay, List.append_assoc]
  rcases hi with hi | hi
  · rw [List.getElem?_append_left (by omega), List.getElem?_take_of_lt hi]
  · rw [List.getElem?_append_right (by omega), htake, List.getElem?_append_right (by omega),
      List.getElem?_drop]
    congr 1
    omega

theorem toList_overwrite (bytes : ByteArray) (place : Nat) (content : Bytes)
    (h : place + content.length ≤ bytes.size) :
    (overwrite bytes place content).data.toList = overlay place content bytes.data.toList := by
  induction content generalizing bytes place with
  | nil => simp [overwrite, overlay]
  | cons b rest ih =>
    rw [List.length_cons] at h
    have hset : (bytes.set! place b).data.toList = bytes.data.toList.set place b := by
      simp [ByteArray.set!]
    have hplace : place < bytes.data.toList.length := by
      rw [Array.length_toList, ByteArray.size_data]
      omega
    have htake : (bytes.data.toList.set place b).take (place + 1)
        = bytes.data.toList.take place ++ [b] := by
      rw [List.take_succ_eq_append_getElem (by simpa using hplace), List.getElem_set_self,
        List.take_set_of_le (Nat.le_refl _)]
    rw [overwrite, ih _ _ (by rw [ByteArray.size_set!]; omega), hset]
    simp only [overlay, List.length_cons]
    rw [htake, List.drop_set_of_lt (by omega), List.append_assoc, List.append_assoc,
      List.singleton_append, List.append_assoc, List.cons_append, Nat.add_right_comm,
      Nat.add_assoc]

theorem size_overwrite {bytes : ByteArray} {place : Nat} {content : Bytes}
    (h : place + content.length ≤ bytes.size) : (overwrite bytes place content).size = bytes.size := by
  have hlen := congrArg List.length (toList_overwrite bytes place content h)
  rwa [length_overlay (by rwa [Array.length_toList, ByteArray.size_data]), Array.length_toList,
    Array.length_toList] at hlen

/-- A span lies within `size` bytes from position `start` on, before and after it is moved. -/
def Span.Within (start size : Nat) (span : Span) : Prop :=
  start + span.source + span.length ≤ size ∧ start + span.target + span.length ≤ size

theorem Span.Within.length_source {start : Nat} {bytes : ByteArray} {span : Span}
    (h : span.Within start bytes.size) :
    ((bytes.data.toList.drop (start + span.source)).take span.length).length = span.length := by
  have hsource := h.1
  rw [List.length_take, List.length_drop, Array.length_toList, ByteArray.size_data]
  omega

theorem toList_move {start : Nat} {bytes : ByteArray} {span : Span}
    (h : span.Within start bytes.size) :
    (span.move start bytes).data.toList
      = overlay (start + span.target)
          ((bytes.data.toList.drop (start + span.source)).take span.length) bytes.data.toList := by
  have hmin : min span.length (bytes.data.size - (start + span.source)) = span.length := by
    have hsource := h.1
    rw [ByteArray.size_data]
    omega
  rw [overlay, h.length_source]
  simp only [Span.move, ByteArray.copySlice, Array.toList_append, Array.toList_extract, hmin,
    List.extract_eq_take_drop, List.drop_zero, Nat.sub_zero, Nat.add_sub_cancel_left]
  congr 1
  refine List.take_of_length_le (Nat.le_of_eq ?_)
  rw [List.length_drop, Array.length_toList]

theorem move_fits {start : Nat} {bytes : ByteArray} {span : Span}
    (h : span.Within start bytes.size) :
    start + span.target
        + ((bytes.data.toList.drop (start + span.source)).take span.length).length
      ≤ bytes.data.toList.length := by
  rw [h.length_source, Array.length_toList]
  exact h.2

theorem size_move {start : Nat} {bytes : ByteArray} {span : Span}
    (h : span.Within start bytes.size) : (span.move start bytes).size = bytes.size := by
  have hlen := congrArg List.length (toList_move h)
  rwa [length_overlay (move_fits h), Array.length_toList, Array.length_toList] at hlen

theorem move_inside {start : Nat} {bytes : ByteArray} {span : Span}
    (h : span.Within start bytes.size) {k : Nat} (hk : k < span.length) :
    (span.move start bytes).data.toList[start + span.target + k]?
      = bytes.data.toList[start + span.source + k]? := by
  rw [toList_move h, overlay_inside (move_fits h) (by rw [h.length_source]; exact hk),
    List.getElem?_take_of_lt hk, List.getElem?_drop]

/-- Position `i` of a text is outside the part of `length` bytes at `place`. -/
def Clear (place length i : Nat) : Prop := i < place ∨ place + length ≤ i

theorem move_outside {start : Nat} {bytes : ByteArray} {span : Span}
    (h : span.Within start bytes.size) {i : Nat} (hi : Clear (start + span.target) span.length i) :
    (span.move start bytes).data.toList[i]? = bytes.data.toList[i]? := by
  rw [toList_move h, overlay_outside (move_fits h) (by rw [h.length_source]; exact hi)]

/-! ### Moves that spare each other -/

/-- A span that is moved first touches neither what a later one is moved from nor where to. -/
def Span.Spares (a b : Span) : Prop :=
  (a.target + a.length ≤ b.source ∨ b.source + b.length ≤ a.target) ∧
  (a.target + a.length ≤ b.target ∨ b.target + b.length ≤ a.target)

/-- Moves that spare each other bring every span to its place as it was at the start, and leave all
other bytes alone. -/
theorem moves_spec (start : Nat) (spans : List Span) (bytes : ByteArray)
    (hspare : spans.Pairwise Span.Spares) (hwithin : ∀ span ∈ spans, span.Within start bytes.size) :
    (spans.foldl (Span.move start) bytes).size = bytes.size ∧
    (∀ span ∈ spans, ∀ k, k < span.length →
      (spans.foldl (Span.move start) bytes).data.toList[start + span.target + k]?
        = bytes.data.toList[start + span.source + k]?) ∧
    (∀ i, (∀ span ∈ spans, Clear (start + span.target) span.length i) →
      (spans.foldl (Span.move start) bytes).data.toList[i]? = bytes.data.toList[i]?) := by
  induction spans generalizing bytes with
  | nil => simp
  | cons first rest ih =>
    obtain ⟨hfirst, hrest⟩ := List.pairwise_cons.mp hspare
    have hin := hwithin first List.mem_cons_self
    have hsize := size_move hin
    obtain ⟨ihsize, ihinside, ihoutside⟩ := ih (first.move start bytes) hrest
      (fun span hmem => hsize ▸ hwithin span (List.mem_cons_of_mem _ hmem))
    refine ⟨ihsize.trans hsize, ?_, ?_⟩
    · intro span hmem k hk
      rw [List.foldl_cons]
      rcases List.mem_cons.mp hmem with rfl | hmem
      · rw [ihoutside, move_inside hin hk]
        intro other hother
        have hapart := (hfirst other hother).2
        simp only [Clear]
        omega
      · rw [ihinside span hmem k hk, move_outside hin]
        have hapart := (hfirst span hmem).1
        simp only [Clear]
        omega
    · intro i hi
      rw [List.foldl_cons, ihoutside i fun span hmem => hi span (List.mem_cons_of_mem _ hmem),
        move_outside hin (hi first List.mem_cons_self)]

theorem Span.Before.spares_of_left {a b : Span} (h : a.Before b) (ha : a.target < a.source) :
    a.Spares b := by
  obtain ⟨hsource, htarget⟩ := h
  simp only [Span.Spares]
  omega

theorem Span.Before.spares_of_right {a b : Span} (h : a.Before b) (hb : b.source < b.target) :
    b.Spares a := by
  obtain ⟨hsource, htarget⟩ := h
  simp only [Span.Spares]
  omega

/-- Spans in order spare each other when those that move left go first, from front to back, and
those that move right follow, from back to front. -/
theorem Span.pairwise_moves {spans : List Span} (h : spans.Pairwise Span.Before) :
    ((spans.filter fun span => span.target < span.source && 0 < span.length) ++
      (spans.reverse.filter fun span => span.source < span.target && 0 < span.length)).Pairwise
        Span.Spares := by
  refine List.pairwise_append.mpr ⟨?_, ?_, ?_⟩
  · apply (h.filter _).imp_of_mem
    intro a b ha _ hbefore
    have hleft := (List.mem_filter.mp ha).2
    simp only [Bool.and_eq_true, decide_eq_true_eq] at hleft
    exact hbefore.spares_of_left hleft.1
  · apply ((List.pairwise_reverse.mpr h).filter _).imp_of_mem
    intro b a hb _ hbefore
    have hright := (List.mem_filter.mp hb).2
    simp only [Bool.and_eq_true, decide_eq_true_eq] at hright
    exact hbefore.spares_of_right hright.1
  · intro a ha b hb
    obtain ⟨hamem, hleft⟩ := List.mem_filter.mp ha
    obtain ⟨hbmem, hright⟩ := List.mem_filter.mp hb
    simp only [Bool.and_eq_true, decide_eq_true_eq] at hleft hright
    have hne : a ≠ b := by
      rintro rfl
      omega
    have heither : spans.Pairwise fun a b => a.Before b ∨ b.Before a := h.imp Or.inl
    have : Std.Symm fun a b : Span => a.Before b ∨ b.Before a := ⟨fun _ _ => Or.symm⟩
    rcases heither.forall hamem (List.mem_reverse.mp hbmem) hne with hbefore | hbefore
    · exact hbefore.spares_of_left hleft.1
    · obtain ⟨hsource, htarget⟩ := hbefore
      simp only [Span.Spares]
      omega

/-! ### Insertions -/

theorem insertions_spec (start : Nat) (insertions : List Insertion) (bytes : ByteArray)
    (horder : insertions.Pairwise fun a b => a.target + a.bytes.length ≤ b.target)
    (hwithin : ∀ insertion ∈ insertions,
      start + insertion.target + insertion.bytes.length ≤ bytes.size) :
    let written := insertions.foldl
      (fun bytes insertion => overwrite bytes (start + insertion.target) insertion.bytes) bytes
    written.size = bytes.size ∧
    (∀ insertion ∈ insertions, ∀ k, k < insertion.bytes.length →
      written.data.toList[start + insertion.target + k]? = insertion.bytes[k]?) ∧
    (∀ i, (∀ insertion ∈ insertions,
        Clear (start + insertion.target) insertion.bytes.length i) →
      written.data.toList[i]? = bytes.data.toList[i]?) := by
  induction insertions generalizing bytes with
  | nil => simp
  | cons first rest ih =>
    obtain ⟨hfirst, hrest⟩ := List.pairwise_cons.mp horder
    have hin := hwithin first List.mem_cons_self
    have hlist := toList_overwrite bytes _ _ hin
    have hfits : start + first.target + first.bytes.length ≤ bytes.data.toList.length := by
      rw [Array.length_toList]
      exact hin
    have hsize := size_overwrite hin
    obtain ⟨ihsize, ihinside, ihoutside⟩ := ih (overwrite bytes (start + first.target) first.bytes)
      hrest (fun insertion hmem => hsize ▸ hwithin insertion (List.mem_cons_of_mem _ hmem))
    refine ⟨ihsize.trans hsize, ?_, ?_⟩
    · intro insertion hmem k hk
      rw [List.foldl_cons]
      rcases List.mem_cons.mp hmem with rfl | hmem
      · rw [ihoutside, hlist, overlay_inside hfits hk]
        intro other hother
        have hapart := hfirst other hother
        simp only [Clear]
        omega
      · exact ihinside insertion hmem k hk
    · intro i hi
      have hrest := ihoutside i fun insertion hmem => hi insertion (List.mem_cons_of_mem _ hmem)
      rw [List.foldl_cons, hrest, hlist, overlay_outside hfits (hi first List.mem_cons_self)]

/-! ### The edited tail -/

namespace Edit

/-- A text that has every span and every insertion in its place is the rebuilt one. -/
theorem drop_eq_rebuild {length source target : Nat} {tail result : Bytes} {edits : List Edit}
    (h : InOrder length source edits) (htail : tail.length = length)
    (hlen : result.length = target + (rebuild source (tail.drop source) edits).length)
    (hspans : ∀ span ∈ spans length source target edits, ∀ k, k < span.length →
      result[span.target + k]? = tail[span.source + k]?)
    (hins : ∀ insertion ∈ insertions source target edits, ∀ k, k < insertion.bytes.length →
      result[insertion.target + k]? = insertion.bytes[k]?) :
    result.drop target = rebuild source (tail.drop source) edits := by
  induction edits generalizing source target with
  | nil =>
    rw [rebuild] at hlen ⊢
    apply List.ext_getElem?
    intro k
    rw [List.getElem?_drop, List.getElem?_drop]
    by_cases hk : k < length - source
    · exact hspans ⟨source, target, length - source⟩ (by simp [spans]) k hk
    · rw [List.length_drop] at hlen
      rw [List.getElem?_eq_none (by omega), List.getElem?_eq_none (by omega)]
  | cons edit rest ih =>
    obtain ⟨hstart, hrest⟩ := h
    have hend := hrest.source_le
    have hdrop : (tail.drop source).drop (edit.start - source + edit.removed)
        = tail.drop (edit.start + edit.removed) := by
      rw [List.drop_drop]
      congr 1
      omega
    have hkept : ((tail.drop source).take (edit.start - source)).length = edit.start - source := by
      rw [List.length_take, List.length_drop]
      omega
    simp only [rebuild, hdrop, List.length_append, hkept] at hlen ⊢
    have hih := @ih _ (target + (edit.start - source) + edit.inserted.length) hrest (by omega)
      (fun span hmem => hspans span (List.mem_cons_of_mem _ hmem))
      (fun insertion hmem => hins insertion (List.mem_cons_of_mem _ hmem))
    rw [← hih]
    apply List.ext_getElem?
    intro k
    rw [List.getElem?_drop]
    by_cases hspan : k < edit.start - source
    · rw [List.append_assoc, List.getElem?_append_left (by omega), List.getElem?_take_of_lt hspan,
        List.getElem?_drop]
      exact hspans ⟨source, target, edit.start - source⟩ List.mem_cons_self k hspan
    by_cases hin : k < edit.start - source + edit.inserted.length
    · have hplace := hins ⟨target + (edit.start - source), edit.inserted⟩ List.mem_cons_self
        (k - (edit.start - source)) (by dsimp only; omega)
      rw [List.append_assoc, List.getElem?_append_right (by omega), hkept,
        List.getElem?_append_left (by omega), ← hplace]
      congr 1
      dsimp only
      omega
    · rw [List.getElem?_append_right (by rw [List.length_append]; omega), List.length_append, hkept,
        List.getElem?_drop]
      congr 1
      omega

end Edit

theorem toList_extendTo (bytes : ByteArray) (size : Nat) :
    (extendTo bytes size).data.toList
      = bytes.data.toList ++ List.replicate (size - bytes.size) 0 := by
  simp [extendTo, ByteArray.data_append, List.data_toByteArray]

theorem size_extendTo (bytes : ByteArray) (size : Nat) :
    (extendTo bytes size).size = max bytes.size size := by
  rw [← ByteArray.size_data, ← Array.length_toList, toList_extendTo, List.length_append,
    List.length_replicate, Array.length_toList, ByteArray.size_data]
  omega

theorem extendTo_getElem? {bytes : ByteArray} (size : Nat) {i : Nat} (hi : i < bytes.size) :
    (extendTo bytes size).data.toList[i]? = bytes.data.toList[i]? := by
  rw [toList_extendTo, List.getElem?_append_left]
  rw [Array.length_toList]
  exact hi

/-- The spans that change their place, in the order in which they are moved. -/
def Span.moves (spans : List Span) : List Span :=
  (spans.filter fun span => span.target < span.source && 0 < span.length) ++
    (spans.reverse.filter fun span => span.source < span.target && 0 < span.length)

theorem Span.mem_moves {spans : List Span} {span : Span} :
    span ∈ moves spans ↔ span ∈ spans ∧ span.target ≠ span.source ∧ 0 < span.length := by
  simp only [moves, List.mem_append, List.mem_filter, List.mem_reverse, Bool.and_eq_true,
    decide_eq_true_eq]
  constructor
  · rintro (⟨hmem, hplace, hlen⟩ | ⟨hmem, hplace, hlen⟩)
    · exact ⟨hmem, by omega, hlen⟩
    · exact ⟨hmem, by omega, hlen⟩
  · rintro ⟨hmem, hplace, hlen⟩
    rcases Nat.lt_or_gt_of_ne hplace with hleft | hright
    · exact Or.inl ⟨hmem, hleft, hlen⟩
    · exact Or.inr ⟨hmem, hright, hlen⟩

/-- Once all spans are moved each stands in its place, also those that did not move, and the bytes
before the tail are as they were. -/
theorem moved_spec {start : Nat} {spans : List Span} {bytes : ByteArray}
    (horder : spans.Pairwise Span.Before) (hwithin : ∀ span ∈ spans, span.Within start bytes.size) :
    ((Span.moves spans).foldl (Span.move start) bytes).size = bytes.size ∧
    (∀ span ∈ spans, ∀ k, k < span.length →
      ((Span.moves spans).foldl (Span.move start) bytes).data.toList[start + span.target + k]?
        = bytes.data.toList[start + span.source + k]?) ∧
    (∀ i, i < start → ((Span.moves spans).foldl (Span.move start) bytes).data.toList[i]?
      = bytes.data.toList[i]?) := by
  obtain ⟨hsize, hinside, houtside⟩ := moves_spec start _ bytes (Span.pairwise_moves horder)
    (fun span hmem => hwithin span (Span.mem_moves.mp hmem).1)
  refine ⟨hsize, ?_, ?_⟩
  · intro span hmem k hk
    by_cases hplace : span.target = span.source
    · refine (houtside _ ?_).trans (by rw [hplace])
      intro other hother
      obtain ⟨hothermem, hotherplace, hotherlen⟩ := Span.mem_moves.mp hother
      have hne : span ≠ other := by
        rintro rfl
        exact hotherplace hplace
      have heither : spans.Pairwise fun a b => a.Before b ∨ b.Before a := horder.imp Or.inl
      have : Std.Symm fun a b : Span => a.Before b ∨ b.Before a := ⟨fun _ _ => Or.symm⟩
      have hapart := heither.forall hmem hothermem hne
      simp only [Span.Before, Clear] at hapart ⊢
      omega
    · exact hinside span (Span.mem_moves.mpr ⟨hmem, hplace, by omega⟩) k hk
  · intro i hi
    apply houtside i
    intro span hmem
    simp only [Clear]
    omega

/-- The bytes with room for the new tail, once the spans are moved. -/
def movedBytes (bytes : ByteArray) (start : Nat) (edits : List Edit) : ByteArray :=
  (Span.moves (Edit.spans (bytes.size - start) 0 0 edits)).foldl (Span.move start)
    (extendTo bytes (start + Edit.newLength (bytes.size - start) edits))

/-- The bytes once the insertions are written too, before what stands after the new tail is cut
off. -/
def writtenBytes (bytes : ByteArray) (start : Nat) (edits : List Edit) : ByteArray :=
  (Edit.insertions 0 0 edits).foldl
    (fun bytes insertion => overwrite bytes (start + insertion.target) insertion.bytes)
    (movedBytes bytes start edits)

theorem editBytes_eq (bytes : ByteArray) (start : Nat) (edits : List Edit) :
    editBytes bytes start edits = (writtenBytes bytes start edits).extract 0
      (start + Edit.newLength (bytes.size - start) edits) := by
  rw [writtenBytes, movedBytes, Span.moves, List.foldl_append, editBytes]

theorem toList_editBytes_eq (bytes : ByteArray) (start : Nat) (edits : List Edit) :
    (editBytes bytes start edits).data.toList
      = (writtenBytes bytes start edits).data.toList.take
          (start + Edit.newLength (bytes.size - start) edits) := by
  rw [editBytes_eq, ByteArray.data_extract, Array.toList_extract, List.extract_eq_take_drop,
    List.drop_zero, Nat.sub_zero]

section Tail

variable {bytes : ByteArray} {start : Nat} {edits : List Edit}

theorem length_tail : (bytes.data.toList.drop start).length = bytes.size - start := by
  rw [List.length_drop, Array.length_toList, ByteArray.size_data]

theorem newLength_eq (h : Edit.InOrder (bytes.size - start) 0 edits) :
    Edit.newLength (bytes.size - start) edits
      = (Edit.rebuild 0 (bytes.data.toList.drop start) edits).length := by
  have hrebuild := Edit.length_rebuild edits h length_tail 0
  rwa [Nat.sub_zero, Nat.zero_add, Nat.zero_add] at hrebuild

/-- Once room is made every span lies within the bytes, before and after it is moved. -/
theorem span_within_extendTo (hstart : start ≤ bytes.size)
    (h : Edit.InOrder (bytes.size - start) 0 edits) {span : Span}
    (hmem : span ∈ Edit.spans (bytes.size - start) 0 0 edits) :
    span.Within start
      (extendTo bytes (start + Edit.newLength (bytes.size - start) edits)).size := by
  have hsource := Edit.source_add_length_le h hmem
  have htarget := Edit.target_add_length_le h length_tail hmem
  rw [← newLength_eq h] at htarget
  rw [size_extendTo]
  simp only [Span.Within]
  omega

theorem insertion_end_le_extendTo (h : Edit.InOrder (bytes.size - start) 0 edits)
    {insertion : Insertion} (hmem : insertion ∈ Edit.insertions 0 0 edits) :
    start + insertion.target + insertion.bytes.length
      ≤ (extendTo bytes (start + Edit.newLength (bytes.size - start) edits)).size := by
  have hend := Edit.insertion_end_le h length_tail hmem
  rw [← newLength_eq h] at hend
  rw [size_extendTo]
  omega

theorem movedBytes_spec (hstart : start ≤ bytes.size)
    (h : Edit.InOrder (bytes.size - start) 0 edits) :
    (movedBytes bytes start edits).size
      = max bytes.size (start + Edit.newLength (bytes.size - start) edits) ∧
    (∀ span ∈ Edit.spans (bytes.size - start) 0 0 edits, ∀ k, k < span.length →
      (movedBytes bytes start edits).data.toList[start + span.target + k]?
        = bytes.data.toList[start + span.source + k]?) ∧
    (∀ i, i < start →
      (movedBytes bytes start edits).data.toList[i]? = bytes.data.toList[i]?) := by
  obtain ⟨hsize, hmoved, hbefore⟩ :=
    moved_spec (Edit.pairwise_spans 0 h) fun _ hmem => span_within_extendTo hstart h hmem
  refine ⟨hsize.trans (size_extendTo _ _), ?_, ?_⟩
  · intro span hmem k hk
    have hsource := Edit.source_add_length_le h hmem
    exact (hmoved span hmem k hk).trans (extendTo_getElem? _ (by omega))
  · intro i hi
    exact (hbefore i hi).trans (extendTo_getElem? _ (by omega))

/-- Every span and every insertion has come to its place, and the bytes before the tail are as they
were. -/
theorem writtenBytes_spec (hstart : start ≤ bytes.size)
    (h : Edit.InOrder (bytes.size - start) 0 edits) :
    (writtenBytes bytes start edits).size
      = max bytes.size (start + Edit.newLength (bytes.size - start) edits) ∧
    (∀ span ∈ Edit.spans (bytes.size - start) 0 0 edits, ∀ k, k < span.length →
      (writtenBytes bytes start edits).data.toList[start + span.target + k]?
        = bytes.data.toList[start + span.source + k]?) ∧
    (∀ insertion ∈ Edit.insertions 0 0 edits, ∀ k, k < insertion.bytes.length →
      (writtenBytes bytes start edits).data.toList[start + insertion.target + k]?
        = insertion.bytes[k]?) ∧
    (∀ i, i < start →
      (writtenBytes bytes start edits).data.toList[i]? = bytes.data.toList[i]?) := by
  obtain ⟨hmovedSize, hmoved, hbefore⟩ := movedBytes_spec hstart h
  obtain ⟨hsize, hinside, houtside⟩ := insertions_spec start (Edit.insertions 0 0 edits)
    (movedBytes bytes start edits) (Edit.pairwise_insertions 0 0 edits) (by
      intro insertion hmem
      rw [hmovedSize, ← size_extendTo]
      exact insertion_end_le_extendTo h hmem)
  refine ⟨hsize.trans hmovedSize, ?_, hinside, ?_⟩
  · intro span hmem k hk
    refine (houtside _ ?_).trans (hmoved span hmem k hk)
    intro insertion hins
    have hapart := Edit.span_insertion_apart h hmem hins
    simp only [Clear]
    omega
  · intro i hi
    refine (houtside _ ?_).trans (hbefore i hi)
    intro insertion _
    simp only [Clear]
    omega

/-- Edits in order leave the bytes before the tail alone and turn the tail into the rebuilt one. -/
theorem toList_editBytes (hstart : start ≤ bytes.size)
    (h : Edit.InOrder (bytes.size - start) 0 edits) :
    (editBytes bytes start edits).data.toList
      = bytes.data.toList.take start
          ++ Edit.rebuild 0 (bytes.data.toList.drop start) edits := by
  obtain ⟨hsize, hspan, hins, hbefore⟩ := writtenBytes_spec hstart h
  have hnew := newLength_eq h
  have hlen : (editBytes bytes start edits).data.toList.length
      = start + Edit.newLength (bytes.size - start) edits := by
    rw [toList_editBytes_eq, List.length_take, Array.length_toList, ByteArray.size_data, hsize]
    omega
  have hfirst : (editBytes bytes start edits).data.toList.take start
      = bytes.data.toList.take start := by
    apply List.ext_getElem?
    intro i
    by_cases hi : i < start
    · rw [List.getElem?_take_of_lt hi, toList_editBytes_eq, List.getElem?_take_of_lt (by omega),
        List.getElem?_take_of_lt hi, hbefore i hi]
    · rw [List.getElem?_take_eq_none (by omega), List.getElem?_take_eq_none (by omega)]
  have hlast : (editBytes bytes start edits).data.toList.drop start
      = Edit.rebuild 0 (bytes.data.toList.drop start) edits := by
    refine @Edit.drop_eq_rebuild _ 0 0 (bytes.data.toList.drop start)
      ((editBytes bytes start edits).data.toList.drop start) _ h length_tail ?_ ?_ ?_
    · rw [List.drop_zero, List.length_drop, hlen, hnew]
      omega
    · intro span hmem k hk
      have htarget := Edit.target_add_length_le h length_tail hmem
      rw [← hnew] at htarget
      rw [List.getElem?_drop, toList_editBytes_eq, List.getElem?_take_of_lt (by omega),
        ← Nat.add_assoc, hspan span hmem k hk, List.getElem?_drop, Nat.add_assoc]
    · intro insertion hmem k hk
      have hend := Edit.insertion_end_le h length_tail hmem
      rw [← hnew] at hend
      rw [List.getElem?_drop, toList_editBytes_eq, List.getElem?_take_of_lt (by omega),
        ← Nat.add_assoc, hins insertion hmem k hk]
  rw [← List.take_append_drop start (editBytes bytes start edits).data.toList, hfirst, hlast]

end Tail

namespace Buffer

theorem length_tail (b : Buffer) (start : Nat) : (b.tail start).length = b.size - start :=
  SqlTemplate.length_tail

theorem toList_edit {b : Buffer} {start : Nat} {edits : List Edit} (hstart : start ≤ b.size)
    (h : Edit.InOrder (b.size - start) 0 edits) :
    (b.edit start edits).toList = b.toList.take start ++ Edit.rebuild 0 (b.tail start) edits :=
  toList_editBytes hstart h

end Buffer

end SqlTemplate
