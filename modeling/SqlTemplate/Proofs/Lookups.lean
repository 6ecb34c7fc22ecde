import Mathlib.Data.List.TakeWhile
import SqlTemplate.Proofs.Definitions
import SqlTemplate.Proofs.Literals

/-!
# Looking up words

A list looks for a word only among the words in one bucket, and finds these by their places in the
ascending list. Nothing is lost on the way: a bucket holds the places of all words with its key
(`getD_foldl_addToBucket`), words that differ in case alone have the same key
(`bucketKey_of_sameWord`), and reading a definition changes the case of its words and nothing else
(`mem_wordsOf_iff`). Main statement: `contains_parse_iff`, by which a lookup finds what a search
through the text of the definition finds.
-/

namespace SqlTemplate.WordList

/-! ### The words of a definition -/

/-- A definition is some white space, the mark of a blocking list if there is one, and the body. -/
inductive IsDefinition : List Char → Bool → List Char → Prop
  | blocking {blanks body : List Char} (hblanks : ∀ c ∈ blanks, Text.isBlank c = true) :
      IsDefinition (blanks ++ '!' :: body) true body
  | allowing {blanks body : List Char} (hblanks : ∀ c ∈ blanks, Text.isBlank c = true)
      (hbody : ∀ c ∈ body.head?, Text.isBlank c = false ∧ c ≠ '!') :
      IsDefinition (blanks ++ body) false body

/-- A word of a body: characters that are not blank, and on either side a blank or the end. -/
def IsWordOf (body word : List Char) : Prop :=
  ∃ front back, body = front ++ (word ++ back) ∧ word ≠ [] ∧
    (∀ c ∈ word, Text.isBlank c = false) ∧ (∀ c ∈ front.getLast?, Text.isBlank c = true) ∧
    ∀ c ∈ back.head?, Text.isBlank c = true

/-- A body lists a word if one of its words is the same up to case. -/
def Lists (body : List Char) (word : Bytes) : Prop :=
  ∃ entry, IsWordOf body entry ∧ sameWord (utf8 (String.ofList entry)) word = true

theorem exists_isDefinition (definition : String) :
    ∃ isBlocking body, IsDefinition definition.toList isBlocking body := by
  have hblanks : ∀ c ∈ definition.toList.takeWhile Text.isBlank, Text.isBlank c = true :=
    fun c hc => List.mem_takeWhile_imp hc
  have hhead := List.head?_dropWhile_not Text.isBlank definition.toList
  rw [← List.takeWhile_append_dropWhile (p := Text.isBlank) (l := definition.toList)]
  generalize definition.toList.takeWhile Text.isBlank = blanks at hblanks ⊢
  generalize definition.toList.dropWhile Text.isBlank = body at hhead ⊢
  cases body with
  | nil => exact ⟨false, [], .allowing hblanks nofun⟩
  | cons first rest =>
    by_cases hmark : first = '!'
    · exact ⟨true, rest, hmark ▸ .blocking hblanks⟩
    · refine ⟨false, first :: rest, .allowing hblanks ?_⟩
      intro c hc
      cases hc
      exact ⟨hhead, hmark⟩

theorem parse_of_isDefinition {definition : String} {isBlocking : Bool} {body : List Char}
    (h : IsDefinition definition.toList isBlocking body) :
    parse definition = ofWords isBlocking (wordsOf body) := by
  unfold parse
  generalize definition.toList = text at h
  cases h with
  | blocking hblanks =>
    have hmark : Text.isBlank '!' = false := by decide
    rw [List.dropWhile_append_of_pos hblanks, List.dropWhile_cons_of_neg (by simp [hmark])]
    rfl
  | allowing hblanks hbody =>
    rw [List.dropWhile_append_of_pos hblanks]
    cases body with
    | nil => rfl
    | cons first rest =>
      obtain ⟨hfirst, hmark⟩ := hbody first rfl
      rw [List.dropWhile_cons_of_neg (by simp [hfirst])]
      split
      · rename_i heq
        cases heq
        exact absurd rfl hmark
      · rfl

/-- The pieces between blanks that are not empty are the words. -/
theorem mem_splitOnP_of_isWordOf {body word : List Char} (h : IsWordOf body word) :
    word ∈ body.splitOnP Text.isBlank := by
  obtain ⟨front, back, rfl, -, hword, hfront, hback⟩ := h
  have hown : word ∈ (word ++ back).splitOnP Text.isBlank := by
    cases back with
    | nil =>
      rw [List.append_nil, List.splitOnP_eq_singleton hword]
      exact List.mem_singleton_self word
    | cons blank back =>
      rw [List.splitOnP_append_cons _ _ (hback blank rfl), List.splitOnP_eq_singleton hword]
      exact List.mem_append_left _ (List.mem_singleton_self word)
  rcases List.eq_nil_or_concat front with rfl | ⟨front, blank, rfl⟩
  · exact hown
  · rw [List.concat_eq_append] at hfront ⊢
    rw [List.append_assoc, List.singleton_append,
      List.splitOnP_append_cons _ _ (hfront blank List.getLast?_concat)]
    exact List.mem_append_right _ hown

theorem isWordOf_of_mem_splitOnP (body : List Char) {word : List Char}
    (h : word ∈ body.splitOnP Text.isBlank) (hne : word ≠ []) : IsWordOf body word := by
  have hfirst : ∀ c ∈ body.takeWhile (!Text.isBlank ·), Text.isBlank c = false :=
    fun c hc => by simpa using List.mem_takeWhile_imp hc
  have hstop := List.head?_dropWhile_not (!Text.isBlank ·) body
  have hbody := List.takeWhile_append_dropWhile (p := (!Text.isBlank ·)) (l := body)
  have hlength := congrArg List.length hbody
  generalize body.takeWhile (!Text.isBlank ·) = first at hfirst hbody hlength
  generalize body.dropWhile (!Text.isBlank ·) = others at hstop hbody hlength
  cases others with
  | nil =>
    rw [← hbody, List.append_nil, List.splitOnP_eq_singleton hfirst] at h
    obtain rfl := List.mem_singleton.mp h
    exact ⟨[], [], hbody.symm, hne, hfirst, nofun, nofun⟩
  | cons blank later =>
    have hblank : Text.isBlank blank = true := by simpa using hstop
    rw [← hbody, List.splitOnP_append_cons _ _ hblank, List.splitOnP_eq_singleton hfirst] at h
    rcases List.mem_append.mp h with h | h
    · obtain rfl := List.mem_singleton.mp h
      refine ⟨[], blank :: later, hbody.symm, hne, hfirst, nofun, ?_⟩
      intro c hc
      cases hc
      exact hblank
    · have hshorter : later.length < body.length := by
        rw [← hlength, List.length_append, List.length_cons]
        omega
      obtain ⟨front, back, rfl, -, hword, hfront, hback⟩ := isWordOf_of_mem_splitOnP later h hne
      refine ⟨first ++ blank :: front, back, ?_, hne, hword, ?_, hback⟩
      · rw [← hbody, List.append_assoc, List.cons_append]
      · intro c hc
        rw [List.getLast?_append, List.getLast?_cons] at hc
        cases hlast : front.getLast? with
        | none =>
          rw [hlast] at hc
          cases hc
          exact hblank
        | some last =>
          rw [hlast] at hc
          cases hc
          exact hfront last hlast
termination_by body.length

/-- Reading a body gives its words in upper case. -/
theorem mem_wordsOf_iff {body : List Char} {word : String} :
    word ∈ wordsOf body ↔
      ∃ entry, IsWordOf body entry ∧ String.ofList (entry.map Char.toUpper) = word := by
  rw [wordsOf, List.mem_map]
  refine exists_congr fun entry => and_congr_left fun _ => ?_
  rw [List.mem_filter]
  constructor
  · rintro ⟨hmem, hne⟩
    exact isWordOf_of_mem_splitOnP body hmem (by simpa using hne)
  · intro h
    have hne : entry ≠ [] := h.choose_spec.choose_spec.2.1
    exact ⟨mem_splitOnP_of_isWordOf h, by simpa using hne⟩

/-! ### Case -/

/-- A character that upper case changes is a small letter of ASCII. -/
theorem toNat_toUpper {c : Char} (h : c.toUpper ≠ c) :
    97 ≤ c.toNat ∧ c.toNat ≤ 122 ∧ c.toUpper.toNat = c.toNat - 32 := by
  unfold Char.toUpper at h ⊢
  split
  · rename_i hlower
    have hfirst : 97 ≤ c.val.toNat := hlower.1
    have hlast : c.val.toNat ≤ 122 := hlower.2
    refine ⟨hfirst, hlast, ?_⟩
    show (c.val + ('A'.val - 'a'.val)).toNat = c.val.toNat - 32
    rw [UInt32.toNat_add]
    have hshift : ('A'.val - 'a'.val).toNat = 2 ^ 32 - 32 := by decide
    omega
  · rename_i hother
    rw [dif_neg hother] at h
    exact absurd rfl h

theorem upper_small_letter : ∀ n ≤ 25,
    Byte.upper (97 + n - 32).toUInt8 = Byte.upper (97 + n).toUInt8 := by
  decide

/-- Bytes and characters agree on what differs in case alone. -/
theorem map_upper_utf8EncodeChar (c : Char) :
    (String.utf8EncodeChar c.toUpper).map Byte.upper = (String.utf8EncodeChar c).map Byte.upper := by
  by_cases hsame : c.toUpper = c
  · rw [hsame]
  · obtain ⟨hfirst, hlast, hupper⟩ := toNat_toUpper hsame
    obtain ⟨n, hn⟩ := Nat.exists_eq_add_of_le hfirst
    rw [Literal.utf8EncodeChar_of_toNat_lt (by omega), Literal.utf8EncodeChar_of_toNat_lt (by omega),
      hupper, hn, List.map_singleton, List.map_singleton, upper_small_letter n (by omega)]

theorem map_upper_utf8_toUpper (text : List Char) :
    (utf8 (String.ofList (text.map Char.toUpper))).map Byte.upper
      = (utf8 (String.ofList text)).map Byte.upper := by
  have hchars := Literal.chars_eq_flatMap
  simp only [Literal.chars] at hchars
  rw [hchars, hchars, List.flatMap_map, List.map_flatMap, List.map_flatMap]
  exact congrArg (text.flatMap ·) (funext map_upper_utf8EncodeChar)

theorem sameWord_iff {a b : Bytes} : sameWord a b = true ↔ a.map Byte.upper = b.map Byte.upper := by
  rw [sameWord, beq_iff_eq]

/-! ### Buckets -/

/-- The key of a word is made of what case does not change. -/
theorem bucketKey_of_sameWord {a b : Bytes} (h : sameWord a b = true) :
    bucketKey a = bucketKey b := by
  rw [sameWord_iff] at h
  have hbyte : ∀ b? : Option UInt8, b?.map (fun b => (Byte.upper b).toNat)
      = (b?.map Byte.upper).map UInt8.toNat := by
    intro b?
    rw [Option.map_map]
    rfl
  have hplace : ∀ i : Nat, a[i]?.map Byte.upper = b[i]?.map Byte.upper := by
    intro i
    rw [← List.getElem?_map, h, List.getElem?_map]
  have hlast : a.getLast?.map Byte.upper = b.getLast?.map Byte.upper := by
    rw [← List.getLast?_map, h, List.getLast?_map]
  have hlength : a.length = b.length := by
    simpa only [List.length_map] using congrArg List.length h
  simp only [bucketKey, hbyte, hplace, hlast, hlength]

/-- A bucket holds the places of all words with its key, in order. -/
theorem getD_foldl_addToBucket (entries : List (String × Nat))
    (buckets : Std.TreeMap Nat (List Nat)) (key : Nat) :
    (entries.foldl addToBucket buckets).getD key [] =
      buckets.getD key [] ++
        (entries.filter fun entry => bucketKey (utf8 entry.1) == key).map (·.2) := by
  induction entries generalizing buckets with
  | nil => exact (List.append_nil _).symm
  | cons entry rest ih =>
    rw [List.foldl_cons, ih, addToBucket, Std.TreeMap.getD_insert, List.filter_cons]
    by_cases hkey : bucketKey (utf8 entry.1) = key
    · simp [hkey]
    · simp [hkey]

/-- A place in a bucket is that of a word with its key. -/
theorem mem_bucket_iff {isBlocking : Bool} {words : List String} {key place : Nat} :
    place ∈ (ofWords isBlocking words).buckets.getD key [] ↔
      ∃ entry, (ofWords isBlocking words).words[place]? = some entry ∧
        bucketKey (utf8 entry) = key := by
  show place ∈ ((words.foldr insertWord []).zipIdx.foldl addToBucket ∅).getD key [] ↔
    ∃ entry, (words.foldr insertWord [])[place]? = some entry ∧ _
  rw [getD_foldl_addToBucket, Std.TreeMap.getD_emptyc, List.nil_append, List.mem_map]
  constructor
  · rintro ⟨⟨entry, place⟩, hmem, rfl⟩
    obtain ⟨hplace, hkey⟩ := List.mem_filter.mp hmem
    exact ⟨entry, List.mk_mem_zipIdx_iff_getElem?.mp hplace, by simpa using hkey⟩
  · rintro ⟨entry, hplace, hkey⟩
    refine ⟨(entry, place), List.mem_filter.mpr ⟨?_, by simpa using hkey⟩, rfl⟩
    exact List.mk_mem_zipIdx_iff_getElem?.mpr hplace

/-- Looking into one bucket finds what looking at every word finds. -/
theorem contains_ofWords_iff {isBlocking : Bool} {words : List String} {word : Bytes} :
    (ofWords isBlocking words).contains word = true ↔
      ∃ entry ∈ words, sameWord (utf8 entry) word = true := by
  have hwords : ∀ entry, entry ∈ (ofWords isBlocking words).words ↔ entry ∈ words :=
    fun entry => mem_foldr_insertWord
  rw [contains, List.any_eq_true]
  constructor
  · rintro ⟨place, -, hfound⟩
    obtain ⟨entry, hplace, hsame⟩ := Option.any_eq_true _ _ |>.mp hfound
    exact ⟨entry, (hwords entry).mp (List.mem_of_getElem? hplace), hsame⟩
  · rintro ⟨entry, hmem, hsame⟩
    obtain ⟨place, hplace⟩ := List.mem_iff_getElem?.mp ((hwords entry).mpr hmem)
    refine ⟨place, mem_bucket_iff.mpr ⟨entry, hplace, bucketKey_of_sameWord hsame⟩, ?_⟩
    rw [hplace]
    exact hsame

/-! ### A lookup is a search -/

theorem contains_parse {definition : String} {isBlocking : Bool} {body : List Char}
    (h : IsDefinition definition.toList isBlocking body) (word : Bytes) :
    (parse definition).contains word = true ↔ Lists body word := by
  rw [parse_of_isDefinition h, contains_ofWords_iff]
  simp only [mem_wordsOf_iff, sameWord_iff]
  constructor
  · rintro ⟨_, ⟨entry, hentry, rfl⟩, hsame⟩
    exact ⟨entry, hentry, sameWord_iff.mpr ((map_upper_utf8_toUpper entry).symm.trans hsame)⟩
  · rintro ⟨entry, hentry, hsame⟩
    exact ⟨_, ⟨entry, hentry, rfl⟩, (map_upper_utf8_toUpper entry).trans (sameWord_iff.mp hsame)⟩

/-- However a definition is taken apart, a lookup in the list that is read from it finds just the
words that its body lists, and a word is allowed if it is found in a list that is not blocking, or
not found in a blocking one. -/
theorem contains_parse_iff (definition : String) :
    (∃ isBlocking body, IsDefinition definition.toList isBlocking body) ∧
    ∀ isBlocking body, IsDefinition definition.toList isBlocking body → ∀ word,
      ((parse definition).contains word = true ↔ Lists body word) ∧
      (isBlocking = false → ((parse definition).allows word = true ↔ Lists body word)) ∧
      (isBlocking = true → ((parse definition).allows word = true ↔ ¬ Lists body word)) := by
  refine ⟨exists_isDefinition definition, ?_⟩
  intro isBlocking body hdefinition word
  have hfinds := contains_parse hdefinition word
  have hmode : (parse definition).isBlocking = isBlocking := by
    rw [parse_of_isDefinition hdefinition, isBlocking_ofWords]
  refine ⟨hfinds, ?_, ?_⟩
  · rintro rfl
    rw [allows, hmode, ← hfinds, bne_iff_ne, Bool.ne_false_iff]
  · rintro rfl
    rw [allows, hmode, ← hfinds, bne_iff_ne]

/-- A word of a blocking list, in another case than it has there. -/
theorem contains_parse_iff_blocking :
    IsDefinition " !drop Delete drop".toList true "drop Delete drop".toList ∧
      Lists "drop Delete drop".toList (utf8 "DELETE") ∧
      (parse " !drop Delete drop").contains (utf8 "DELETE") = true ∧
      ¬ (parse " !drop Delete drop").allows (utf8 "DELETE") = true := by
  have hblank : Text.isBlank ' ' = true := by decide
  have hletters : ∀ c ∈ "Delete".toList, Text.isBlank c = false :=
    List.forall_iff_forall_mem.mp (by decide)
  have hdefinition : IsDefinition " !drop Delete drop".toList true "drop Delete drop".toList :=
    @IsDefinition.blocking [' '] _ (List.forall_mem_singleton.mpr hblank)
  have hword : IsWordOf "drop Delete drop".toList "Delete".toList :=
    ⟨"drop ".toList, " drop".toList, rfl, List.cons_ne_nil _ _, hletters,
      fun _ hc => Option.some.inj hc ▸ hblank, fun _ hc => Option.some.inj hc ▸ hblank⟩
  have hlists : Lists "drop Delete drop".toList (utf8 "DELETE") := ⟨_, hword, by decide +kernel⟩
  obtain ⟨hcontains, -, hallows⟩ :=
    (contains_parse_iff " !drop Delete drop").2 true _ hdefinition (utf8 "DELETE")
  exact ⟨hdefinition, hlists, hcontains.mpr hlists, fun h => (hallows rfl).mp h hlists⟩

end SqlTemplate.WordList
