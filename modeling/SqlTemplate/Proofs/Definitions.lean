import Mathlib.Data.List.Basic
import SqlTemplate.WordList

/-!
# Definitions of word lists

A word list has a canonical definition: its words in ascending order, behind a mark if the list is
blocking. Reading words that are joined by spaces gives them back (`wordsOf_intercalate`), but the
mark is read off the front of the text, and there stands the least word. A word that begins with the
mark itself is therefore taken for one: `parse_definition_iff` says that the canonical definition
gives the list back in all other cases, and that in this one the list turns into a blocking list.
-/

namespace SqlTemplate.WordList

/-! ### Ascending words -/

theorem mem_insertWord {word other : String} {words : List String} :
    other ∈ insertWord word words ↔ other = word ∨ other ∈ words := by
  induction words with
  | nil => simp [insertWord]
  | cons first rest ih =>
    rw [insertWord]
    split
    · rename_i heq
      simp [heq]
    split
    · exact List.mem_cons
    · rw [List.mem_cons, ih, List.mem_cons]
      exact or_left_comm

theorem pairwise_insertWord (word : String) {words : List String}
    (h : words.Pairwise (· < ·)) : (insertWord word words).Pairwise (· < ·) := by
  induction words with
  | nil => exact List.pairwise_singleton _ word
  | cons first rest ih =>
    obtain ⟨hfirst, hrest⟩ := List.pairwise_cons.mp h
    rw [insertWord]
    split
    · exact h
    rename_i hne
    split
    · rename_i hlt
      refine List.pairwise_cons.mpr ⟨?_, h⟩
      exact List.forall_mem_cons.mpr ⟨hlt, fun other hother => String.lt_trans hlt (hfirst other hother)⟩
    · rename_i hge
      refine List.pairwise_cons.mpr ⟨?_, ih hrest⟩
      intro other hother
      rcases mem_insertWord.mp hother with rfl | hother
      · exact Std.lt_of_le_of_ne hge (Ne.symm hne)
      · exact hfirst other hother

theorem pairwise_foldr_insertWord (words : List String) :
    (words.foldr insertWord []).Pairwise (· < ·) := by
  induction words with
  | nil => exact .nil
  | cons word rest ih => exact pairwise_insertWord word ih

theorem mem_foldr_insertWord {other : String} {words : List String} :
    other ∈ words.foldr insertWord [] ↔ other ∈ words := by
  induction words with
  | nil => exact Iff.rfl
  | cons word rest ih => rw [List.foldr_cons, mem_insertWord, ih, List.mem_cons]

/-- Words that are in order stay as they are. -/
theorem foldr_insertWord_of_pairwise {words : List String} (h : words.Pairwise (· < ·)) :
    words.foldr insertWord [] = words := by
  induction words with
  | nil => rfl
  | cons word rest ih =>
    obtain ⟨hword, hrest⟩ := List.pairwise_cons.mp h
    rw [List.foldr_cons, ih hrest]
    cases rest with
    | nil => rfl
    | cons next rest =>
      have hlt : word < next := hword next List.mem_cons_self
      have hne : word ≠ next := by
        rintro rfl
        exact String.lt_irrefl word hlt
      rw [insertWord, if_neg hne, if_pos hlt]

/-! ### Words between blanks -/

/-- A text that can stand in a list: upper case, without blanks. -/
structure IsEntry (word : String) : Prop where
  ne_nil : word.toList ≠ []
  not_isBlank : ∀ c ∈ word.toList, Text.isBlank c = false
  toUpper_eq : ∀ c ∈ word.toList, c.toUpper = c

/-- Upper case changes a character only into a capital letter of ASCII. -/
theorem toUpper_eq_or (c : Char) :
    c.toUpper = c ∨ (0x41 ≤ c.toUpper.toNat ∧ c.toUpper.toNat ≤ 0x5A) := by
  unfold Char.toUpper
  split
  · rename_i hlower
    refine Or.inr ?_
    have hfirst : 97 ≤ c.val.toNat := hlower.1
    have hlast : c.val.toNat ≤ 122 := hlower.2
    have hval : (c.val + ('A'.val - 'a'.val)).toNat = c.val.toNat - 32 := by
      rw [UInt32.toNat_add]
      have hshift : ('A'.val - 'a'.val).toNat = 2 ^ 32 - 32 := by decide
      omega
    show 0x41 ≤ (c.val + ('A'.val - 'a'.val)).toNat ∧ (c.val + ('A'.val - 'a'.val)).toNat ≤ 0x5A
    omega
  · exact Or.inl rfl

theorem isBlank_toUpper {c : Char} (h : Text.isBlank c = false) :
    Text.isBlank c.toUpper = false := by
  rcases toUpper_eq_or c with heq | ⟨hfirst, hlast⟩
  · rwa [heq]
  · simp only [Text.isBlank, Text.blankRanges, List.any_cons, List.any_nil, Bool.or_false]
    grind

theorem toUpper_toUpper (c : Char) : c.toUpper.toUpper = c.toUpper := by
  rcases toUpper_eq_or c with heq | ⟨-, hlast⟩
  · rw [heq, heq]
  · generalize c.toUpper = upper at hlast ⊢
    unfold Char.toUpper
    rw [dif_neg]
    rintro ⟨hlower, -⟩
    have hge : 97 ≤ upper.toNat := hlower
    omega

theorem not_isBlank_of_mem_splitOnP {text piece : List Char}
    (h : piece ∈ text.splitOnP Text.isBlank) : ∀ c ∈ piece, Text.isBlank c = false := by
  induction text generalizing piece with
  | nil =>
    obtain rfl : piece = [] := by simpa using h
    exact List.forall_mem_nil _
  | cons first rest ih =>
    rw [List.splitOnP_cons_eq_if_modifyHead] at h
    split at h
    · rcases List.mem_cons.mp h with rfl | h
      · exact List.forall_mem_nil _
      · exact ih h
    · rename_i hfirst
      obtain ⟨head, tail, hsplit⟩ :=
        List.exists_cons_of_ne_nil (List.splitOnP_ne_nil Text.isBlank rest)
      rw [hsplit, List.modifyHead_cons] at h
      rcases List.mem_cons.mp h with rfl | h
      · exact List.forall_mem_cons.mpr ⟨by simpa using hfirst, ih (hsplit ▸ List.mem_cons_self)⟩
      · exact ih (hsplit ▸ List.mem_cons_of_mem _ h)

theorem isEntry_of_mem_wordsOf {body : List Char} : ∀ word ∈ wordsOf body, IsEntry word := by
  intro word hword
  obtain ⟨piece, hpiece, rfl⟩ := List.mem_map.mp hword
  obtain ⟨hsplit, hne⟩ := List.mem_filter.mp hpiece
  have hblank := not_isBlank_of_mem_splitOnP hsplit
  constructor
  · simpa using hne
  · intro c hc
    rw [String.toList_ofList] at hc
    obtain ⟨source, hsource, rfl⟩ := List.mem_map.mp hc
    exact isBlank_toUpper (hblank source hsource)
  · intro c hc
    rw [String.toList_ofList] at hc
    obtain ⟨source, -, rfl⟩ := List.mem_map.mp hc
    exact toUpper_toUpper source

theorem wordsOf_append_space (x y : List Char) :
    wordsOf (x ++ ' ' :: y) = wordsOf x ++ wordsOf y := by
  have hspace : Text.isBlank ' ' = true := by decide
  rw [wordsOf, List.splitOnP_append_cons x y hspace, List.filter_append, List.map_append]
  rfl

theorem IsEntry.wordsOf_eq {word : String} (h : IsEntry word) : wordsOf word.toList = [word] := by
  have hkeep : String.ofList (word.toList.map Char.toUpper) = word := by
    rw [List.map_congr_left h.toUpper_eq, List.map_id', String.ofList_toList]
  rw [wordsOf, List.splitOnP_eq_singleton h.not_isBlank]
  simp [h.ne_nil, hkeep]

/-- Reading words with spaces between them. -/
theorem wordsOf_intercalate {words : List String} (h : ∀ word ∈ words, IsEntry word) :
    wordsOf (" ".intercalate words).toList = words := by
  rw [String.toList_intercalate]
  induction words with
  | nil => rfl
  | cons word rest ih =>
    obtain ⟨hword, hrest⟩ := List.forall_mem_cons.mp h
    cases rest with
    | nil =>
      rw [List.map_singleton, List.intercalate_singleton]
      exact hword.wordsOf_eq
    | cons next rest =>
      rw [List.map_cons, List.map_cons, List.intercalate_cons_cons, List.append_assoc,
        ← List.map_cons, show " ".toList = [' '] from rfl, List.singleton_append,
        wordsOf_append_space, hword.wordsOf_eq]
      exact congrArg (word :: ·) (ih hrest)

/-! ### Reading a canonical definition -/

/-- The least word begins with the mark of blocking lists. -/
def startsWithMark (list : WordList) : Bool :=
  list.words.head?.any fun word => word.toList.head? == some '!'

theorem isBlocking_ofWords (isBlocking : Bool) (words : List String) :
    (ofWords isBlocking words).isBlocking = isBlocking := rfl

theorem parse_eq (definition : String) :
    ∃ isBlocking body, parse definition = ofWords isBlocking (wordsOf body) := by
  unfold parse
  split
  · exact ⟨true, _, rfl⟩
  · exact ⟨false, _, rfl⟩

theorem isEntry_of_mem_parse (definition : String) :
    ∀ word ∈ (parse definition).words, IsEntry word := by
  obtain ⟨isBlocking, body, heq⟩ := parse_eq definition
  rw [heq]
  intro word hword
  exact isEntry_of_mem_wordsOf word (mem_foldr_insertWord.mp hword)

/-- A list that was read is told by its mark and its words. -/
theorem ofWords_parse (definition : String) :
    ofWords (parse definition).isBlocking (parse definition).words = parse definition := by
  obtain ⟨isBlocking, body, heq⟩ := parse_eq definition
  have hsame := foldr_insertWord_of_pairwise (pairwise_foldr_insertWord (wordsOf body))
  rw [heq, isBlocking_ofWords]
  simp only [ofWords, hsame]

/-- What words that are joined by spaces begin with. -/
theorem head?_intercalate {words : List String} (h : ∀ word ∈ words, IsEntry word) :
    (" ".intercalate words).toList.head? = words.head?.bind fun word => word.toList.head? := by
  rw [String.toList_intercalate]
  cases words with
  | nil => rfl
  | cons word rest =>
    have hne := (h word List.mem_cons_self).ne_nil
    cases rest with
    | nil => rw [List.map_singleton, List.intercalate_singleton]; rfl
    | cons next rest =>
      rw [List.map_cons, List.map_cons, List.intercalate_cons_cons, List.append_assoc,
        List.head?_append_of_ne_nil _ hne]
      rfl

theorem parse_of_mark {definition : String} {body : List Char}
    (h : definition.toList = '!' :: body) : parse definition = ofWords true (wordsOf body) := by
  have hmark : Text.isBlank '!' = false := by decide
  unfold parse
  rw [h, List.dropWhile_cons_of_neg (by simp [hmark])]
  rfl

theorem parse_of_no_mark {definition : String}
    (h : ∀ c ∈ definition.toList.head?, Text.isBlank c = false ∧ c ≠ '!') :
    parse definition = ofWords false (wordsOf definition.toList) := by
  unfold parse
  cases htext : definition.toList with
  | nil => rfl
  | cons first rest =>
    rw [htext] at h
    obtain ⟨hblank, hmark⟩ := h first rfl
    rw [List.dropWhile_cons_of_neg (by simp [hblank])]
    split
    · rename_i heq
      cases heq
      exact absurd rfl hmark
    · rfl

section Reread

variable {definition : String}

theorem parse_definition_of_isBlocking (h : (parse definition).isBlocking = true) :
    parse (parse definition).definition = parse definition := by
  have htext : (parse definition).definition.toList
      = '!' :: (" ".intercalate (parse definition).words).toList := by
    rw [WordList.definition, if_pos h, String.toList_append]
    rfl
  rw [parse_of_mark htext, wordsOf_intercalate (isEntry_of_mem_parse definition), ← h,
    ofWords_parse]

theorem definition_of_not_isBlocking (h : (parse definition).isBlocking = false) :
    (parse definition).definition = " ".intercalate (parse definition).words := by
  simp [WordList.definition, h]

theorem parse_definition_of_not_startsWithMark (h : (parse definition).isBlocking = false)
    (hmark : (parse definition).startsWithMark = false) :
    parse (parse definition).definition = parse definition := by
  have hentries := isEntry_of_mem_parse definition
  rw [definition_of_not_isBlocking h, parse_of_no_mark, wordsOf_intercalate hentries, ← h,
    ofWords_parse]
  intro c hc
  rw [head?_intercalate hentries] at hc
  obtain ⟨word, hword, hc⟩ := Option.bind_eq_some_iff.mp hc
  refine ⟨(hentries word (List.mem_of_mem_head? hword)).not_isBlank c (List.mem_of_mem_head? hc), ?_⟩
  rintro rfl
  simp [startsWithMark, hword, hc] at hmark

/-- The first word of a list that is not blocking gives up its mark to the list. -/
theorem isBlocking_parse_definition (h : (parse definition).isBlocking = false)
    (hmark : (parse definition).startsWithMark = true) :
    (parse (parse definition).definition).isBlocking = true := by
  have hhead : (" ".intercalate (parse definition).words).toList.head? = some '!' := by
    rw [head?_intercalate (isEntry_of_mem_parse definition)]
    unfold startsWithMark at hmark
    cases hword : (parse definition).words.head? with
    | none => simp [hword] at hmark
    | some word => simpa [hword] using hmark
  obtain ⟨body, hbody⟩ := List.head?_eq_some_iff.mp hhead
  rw [definition_of_not_isBlocking h, parse_of_mark hbody]
  rfl

end Reread

/-- The canonical definition of a list gives the list back, with the same words allowed, unless the
list is not blocking and its least word begins with `!`; such a list turns into a blocking one. -/
theorem parse_definition_iff (definition : String) :
    let list := parse definition
    let again := parse list.definition
    (again.isBlocking = list.isBlocking ∧ again.words = list.words ∧
        (∀ word, again.allows word = list.allows word) ∧ again.definition = list.definition ↔
      list.isBlocking = true ∨ list.startsWithMark = false) ∧
    (list.isBlocking = false → list.startsWithMark = true → again.isBlocking = true) := by
  intro list again
  refine ⟨⟨?_, ?_⟩, isBlocking_parse_definition⟩
  · rintro ⟨hsame, -⟩
    by_contra hnone
    rw [not_or, Bool.not_eq_true, Bool.not_eq_false] at hnone
    have hflips : again.isBlocking = true := isBlocking_parse_definition hnone.1 hnone.2
    rw [hsame, hnone.1] at hflips
    exact Bool.false_ne_true hflips
  · intro h
    have hsame : again = list := by
      cases hblocking : list.isBlocking with
      | true => exact parse_definition_of_isBlocking hblocking
      | false =>
        refine parse_definition_of_not_startsWithMark hblocking (h.resolve_left ?_)
        rw [hblocking]
        exact Bool.false_ne_true
    rw [hsame]
    exact ⟨rfl, rfl, fun _ => rfl, rfl⟩

example : (parse "a !b").definition = "!B A" ∧ (parse "a !b").isBlocking = false ∧
    (parse "!B A").isBlocking = true := by
  decide +kernel

end SqlTemplate.WordList
