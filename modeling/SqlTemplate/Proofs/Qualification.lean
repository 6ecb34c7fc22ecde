import SqlTemplate.Proofs.Acceptance
import SqlTemplate.Proofs.FittedParts
import SqlTemplate.Proofs.SafeText
import SqlTemplate.Proofs.Tokens

/-!
# What a qualifier is put before

Which words of a text name a column without saying whose can be told from the text alone, by a
reader that takes one token after another from it (`IsColumnAt`). A safe text is read in the same
places by `Lexeme.readAll`, so these words are the ones that take a qualifier. The main statement is
`sanitize_qualified`: apart from the qualifier before each of them, the fitted text is what it is
without a qualifier.
-/

namespace SqlTemplate

namespace Server

/-- A reader comes to a place of the text: it has taken `front` token by token, and `rest` is left. -/
inductive Reaches (r : Rules) (text : Bytes) : Bytes → Bytes → Prop
  | start : Reaches r text [] text
  | step {front token rest : Bytes} {b : UInt8} {after : Bytes}
      (h : Reaches r text front (b :: after)) (hfirst : (first r b after).2 = rest)
      (htoken : token ++ rest = b :: after) : Reaches r text (front ++ token) rest

/-- Between `front` and `back` stands a word, outside literals, quoted names, numbers and
placeholders: as many word bytes as there are from a place on where the reader comes to one that a
word may start with. -/
structure IsWordAt (r : Rules) (front name back : Bytes) : Prop where
  reached : Reaches r (front ++ (name ++ back)) front (name ++ back)
  starts : ∃ b, name.head? = some b ∧ Byte.isWordStart b = true
  isWord : ∀ b ∈ name, Byte.isWord b = true
  stops : ∀ b, back.head? = some b → Byte.isWord b = false

/-- What follows `front` is an alias: the keyword stands before it, with nothing but white space
between. -/
def IsAliasAt (r : Rules) (front rest : Bytes) : Prop :=
  ∃ before keyword gap, front = before ++ (keyword ++ gap) ∧ Lexeme.isAs keyword = true ∧
    (∀ b ∈ gap, Byte.isSpace b = true) ∧ IsWordAt r before keyword (gap ++ rest)

end Server

/-- Between `front` and `back` stands a word that names a column without saying whose. -/
structure IsColumnAt (s : Settings) (front name back : Bytes) : Prop where
  word : Server.IsWordAt (.source s) front name back
  notListed : s.idents.allows name = false
  notKeyword : Lexeme.isAs name = false
  notAlias : ¬ Server.IsAliasAt (.source s) front (name ++ back)
  noDotBefore : front.getLast? ≠ some Byte.dot
  noDotAfter : back.head? ≠ some Byte.dot
  notCalled : ¬ OpensCall back
  notOpening : back.head? ≠ some Byte.apostrophe

/-! ### Places between lexemes -/

namespace Lexeme

variable {escapes : Bool} {mode : SafeMode} {depth : Nat} {text : Bytes}

theorem sources_append (front back : List Lexeme) :
    sources (front ++ back) = sources front ++ sources back :=
  List.flatMap_append

theorem sources_concat (front : List Lexeme) (l : Lexeme) :
    sources (front ++ [l]) = sources front ++ l.source := by
  rw [sources_append, sources, sources, List.flatMap_singleton]

theorem cons_of_readAll {l : Lexeme} {rest : List Lexeme}
    (h : readAll escapes mode depth text = .ok (l :: rest)) :
    l.Proper escapes mode ∧ l.Leaves (sources rest) ∧ l.Stops (sources rest) ∧
      ∃ next, readAll escapes mode next (sources rest) = .ok rest := by
  obtain ⟨haccepted, hstop, -⟩ := readAll_eq_ok_iff.mp h
  cases haccepted with
  | cons hproper hleaves _ hrest =>
    exact ⟨hproper, hleaves, hstop.1, _, readAll_eq_ok_iff.mpr ⟨hrest, hstop.2, rfl⟩⟩

/-- The last lexemes of a text are how its end is read. -/
theorem readAll_suffix {before after : List Lexeme}
    (h : readAll escapes mode depth text = .ok (before ++ after)) :
    ∃ next, readAll escapes mode next (sources after) = .ok after := by
  induction before generalizing depth text with
  | nil =>
    obtain ⟨haccepted, hstop, -⟩ := readAll_eq_ok_iff.mp h
    exact ⟨depth, readAll_eq_ok_iff.mpr ⟨haccepted, hstop, rfl⟩⟩
  | cons l before ih =>
    obtain ⟨-, -, -, next, hrest⟩ := cons_of_readAll h
    exact ih hrest

end Lexeme

namespace Server

variable {s : Settings} {mode : SafeMode} {depth : Nat} {r : Rules} {text front rest : Bytes}

theorem source_nameQuotes (s : Settings) :
    ∀ quote ∈ (Rules.source s).nameQuotes, quote = Byte.doubleQuote ∨ quote = Byte.backtick := by
  intro quote hquote
  simpa [Rules.source] using hquote

theorem Reaches.spaces {run : Bytes} (h : Reaches r text front (run ++ rest))
    (hrun : ∀ b ∈ run, Byte.isSpace b = true) : Reaches r text (front ++ run) rest := by
  induction run generalizing front with
  | nil => rwa [List.append_nil]
  | cons b run ih =>
    obtain ⟨hb, hrun⟩ := List.forall_mem_cons.mp hrun
    have hfirst : (first r b (run ++ rest)).2 = run ++ rest := by rw [first, if_pos hb]
    have hstep : Reaches r text (front ++ [b]) (run ++ rest) := h.step hfirst rfl
    have hnext := ih hstep hrun
    rwa [List.append_assoc] at hnext

/-- Where the reader comes to a lexeme that is no white space, it takes all of the lexeme. -/
theorem first_source {l : Lexeme} (hspace : l.isSpace = false)
    (hproper : l.Proper s.usesBackslashEscapes mode) (hleaves : l.Leaves rest)
    (hstops : l.Stops rest) :
    ∃ b more, l.source ++ rest = b :: more ∧ (first (.source s) b more).2 = rest := by
  obtain ⟨b, more, hsource, hfirst⟩ := first_append (r := .source s) (source_nameQuotes s)
    (by
      intro quote name hl
      subst hl
      simpa [Rules.source] using hproper.1)
    hspace hproper (Lexeme.ends_of_stops _ hproper hleaves hstops)
  exact ⟨b, more, hsource, by rw [hfirst]⟩

theorem Reaches.lexeme {l : Lexeme} (h : Reaches (.source s) text front (l.source ++ rest))
    (hproper : l.Proper s.usesBackslashEscapes mode) (hleaves : l.Leaves rest)
    (hstops : l.Stops rest) : Reaches (.source s) text (front ++ l.source) rest := by
  cases hspace : l.isSpace with
  | true =>
    cases l with
    | space run => exact h.spaces hproper.2
    | _ => cases hspace
  | false =>
    obtain ⟨b, more, hsource, hfirst⟩ := first_source hspace hproper hleaves hstops
    rw [hsource] at h
    exact h.step hfirst hsource

/-- The reader comes to every place between two lexemes. -/
theorem Reaches.lexemes {before after : List Lexeme}
    (hread : Lexeme.readAll s.usesBackslashEscapes mode depth rest = .ok (before ++ after))
    (h : Reaches (.source s) text front (Lexeme.sources (before ++ after))) :
    Reaches (.source s) text (front ++ Lexeme.sources before) (Lexeme.sources after) := by
  induction before generalizing front depth rest with
  | nil => rwa [Lexeme.sources, List.flatMap_nil, List.append_nil]
  | cons l before ih =>
    obtain ⟨hproper, hleaves, hstops, next, hrest⟩ := Lexeme.cons_of_readAll hread
    have hnext := ih hrest (h.lexeme hproper hleaves hstops)
    rwa [List.append_assoc] at hnext

/-- A place of the text of lexemes that is between two of them or within white space, of which `gap`
is left. -/
def IsPlace (lexemes : List Lexeme) (front rest : Bytes) : Prop :=
  ∃ before after gap, lexemes = before ++ after ∧ front ++ gap = Lexeme.sources before ∧
    gap ++ Lexeme.sources after = rest ∧ ∀ b ∈ gap, Byte.isSpace b = true

/-- What is left at a place goes on with white space, or with another lexeme as a whole. -/
theorem IsPlace.cases {lexemes : List Lexeme} {b : UInt8} {after : Bytes}
    (hread : Lexeme.readAll s.usesBackslashEscapes mode depth text = .ok lexemes)
    (h : IsPlace lexemes front (b :: after)) :
    (Byte.isSpace b = true ∧ IsPlace lexemes (front ++ [b]) after) ∨
      ∃ before l later, lexemes = before ++ l :: later ∧ l.isSpace = false ∧
        front = Lexeme.sources before ∧ l.source ++ Lexeme.sources later = b :: after := by
  have hspaces {before later : List Lexeme} {c : UInt8} {gap : Bytes}
      (hsplit : lexemes = before ++ later) (hbefore : front ++ c :: gap = Lexeme.sources before)
      (hlater : c :: gap ++ Lexeme.sources later = b :: after)
      (hgap : ∀ b ∈ c :: gap, Byte.isSpace b = true) :
      Byte.isSpace b = true ∧ IsPlace lexemes (front ++ [b]) after := by
    obtain ⟨rfl, hafter⟩ := List.cons.inj hlater
    obtain ⟨hc, hgap⟩ := List.forall_mem_cons.mp hgap
    refine ⟨hc, before, later, gap, hsplit, ?_, hafter, hgap⟩
    rw [← hbefore, List.append_assoc, List.singleton_append]
  obtain ⟨before, later, gap, hsplit, hbefore, hlater, hgap⟩ := h
  cases gap with
  | cons c gap => exact Or.inl (hspaces hsplit hbefore hlater hgap)
  | nil =>
    rw [List.append_nil] at hbefore
    cases later with
    | nil => cases hlater
    | cons l later =>
      cases hspace : l.isSpace with
      | false => exact Or.inr ⟨before, l, later, hsplit, hspace, hbefore, hlater⟩
      | true =>
        -- At the front of white space all of it is left.
        rw [hsplit] at hread
        obtain ⟨next, hread⟩ := Lexeme.readAll_suffix hread
        have hproper := (Lexeme.cons_of_readAll hread).1
        cases l with
        | space run =>
          obtain ⟨c, run, rfl⟩ := List.exists_cons_of_ne_nil hproper.1
          have hsplit' : lexemes = (before ++ [.space (c :: run)]) ++ later := by
            rw [hsplit, List.append_assoc, List.singleton_append]
          refine Or.inl (hspaces hsplit' ?_ hlater hproper.2)
          rw [Lexeme.sources_concat, hbefore]
          rfl
        | _ => cases hspace

theorem IsPlace.step {lexemes : List Lexeme} {token after : Bytes} {b : UInt8}
    (hread : Lexeme.readAll s.usesBackslashEscapes mode depth text = .ok lexemes)
    (h : IsPlace lexemes front (b :: after)) (hfirst : (first (.source s) b after).2 = rest)
    (htoken : token ++ rest = b :: after) : IsPlace lexemes (front ++ token) rest := by
  rcases h.cases hread with ⟨hb, hplace⟩ | ⟨before, l, later, rfl, hspace, rfl, hsource⟩
  · rw [first, if_pos hb] at hfirst
    obtain rfl : after = rest := hfirst
    have hone : token ++ after = [b] ++ after := htoken
    rwa [List.append_cancel_right hone]
  · obtain ⟨next, hread⟩ := Lexeme.readAll_suffix hread
    obtain ⟨hproper, hleaves, hstops, -⟩ := Lexeme.cons_of_readAll hread
    obtain ⟨c, more, hsource', htaken⟩ := first_source hspace hproper hleaves hstops
    obtain ⟨rfl, rfl⟩ := List.cons.inj (hsource'.symm.trans hsource)
    obtain rfl : Lexeme.sources later = rest := htaken.symm.trans hfirst
    refine ⟨before ++ [l], later, [], ?_, ?_, rfl, List.forall_mem_nil _⟩
    · rw [List.append_assoc, List.singleton_append]
    · rw [List.append_cancel_right (htoken.trans hsource.symm), Lexeme.sources_concat,
        List.append_nil]

/-- The reader comes to no other places of a safe text. -/
theorem Reaches.isPlace {lexemes : List Lexeme}
    (hread : Lexeme.readAll s.usesBackslashEscapes mode depth text = .ok lexemes)
    (h : Reaches (.source s) text front rest) : IsPlace lexemes front rest := by
  induction h with
  | start =>
    exact ⟨[], lexemes, [], rfl, rfl, (Lexeme.readAll_eq_ok_iff.mp hread).2.2,
      List.forall_mem_nil _⟩
  | step h hfirst htoken ih => exact ih.step hread hfirst htoken

end Server

/-! ### Words of a safe text -/

namespace Lexeme

variable {s : Settings} {mode : SafeMode} {depth : Nat} {text front name back : Bytes}

/-- What starts like a word is a word, or a literal after its letter. -/
theorem word_or_opens {escapes : Bool} {l : Lexeme} {rest : Bytes} {b : UInt8}
    (hproper : l.Proper escapes mode) (hleaves : l.Leaves rest)
    (hb : (l.source ++ rest).head? = some b) (hstart : Byte.isWordStart b = true) :
    (∃ name, l = .word name) ∨ ∃ more, l.source ++ rest = b :: Byte.apostrophe :: more := by
  obtain ⟨c, hc, hstarts⟩ := hproper.head?
  rw [List.head?_append, hc, Option.some_or] at hb
  obtain rfl : c = b := Option.some.inj hb
  cases l with
  | word name => exact Or.inl ⟨name, rfl⟩
  | national letter =>
    obtain ⟨more, rfl⟩ := List.head?_eq_some_iff.mp hleaves
    obtain rfl : letter = c := Option.some.inj hc
    exact Or.inr ⟨more, rfl⟩
  | hexString letter digits | bitString letter digits =>
    obtain rfl : letter = c := Option.some.inj hc
    exact Or.inr ⟨_, rfl⟩
  | space run =>
    exact absurd ((not_isSpace_of_isWordStart hstart).symm.trans hstarts) Bool.false_ne_true
  | number number => exact absurd hstarts (by grind [StartsAs, Byte.isWordStart, Byte.isLetter,
      Byte.isDigit])
  | string parts =>
    obtain rfl : c = Byte.apostrophe := hstarts
    exact absurd hstart (by decide)
  | quotedName quote name => rcases hstarts.2 with rfl | rfl <;> exact absurd hstart (by decide)
  | placeholder place => rcases hstarts with rfl | rfl | rfl <;> exact absurd hstart (by decide)
  | mark d =>
    obtain rfl : c = d := hstarts.1
    exact absurd hstart (by rw [hproper.2.1]; exact Bool.false_ne_true)

/-- Where a run of word bytes ends. -/
theorem append_inj_of_isWord {x y : Bytes} (hx : ∀ b ∈ x, Byte.isWord b = true)
    (hy : ∀ b, y.head? = some b → Byte.isWord b = false)
    (hname : ∀ b ∈ name, Byte.isWord b = true)
    (hback : ∀ b, back.head? = some b → Byte.isWord b = false) (h : x ++ y = name ++ back) :
    x = name ∧ y = back := by
  obtain ⟨htake, hdrop⟩ := takeWhile_append_stop hx hy
  obtain ⟨htake', hdrop'⟩ := takeWhile_append_stop hname hback
  rw [h] at htake hdrop
  exact ⟨htake.symm.trans htake', hdrop.symm.trans hdrop'⟩

theorem isWordAt_of_readAll {before after : List Lexeme}
    (hread : readAll s.usesBackslashEscapes mode depth text = .ok (before ++ .word name :: after)) :
    Server.IsWordAt (.source s) (sources before) name (sources after) := by
  obtain ⟨next, hword⟩ := readAll_suffix hread
  obtain ⟨hproper, hleaves, -, -⟩ := cons_of_readAll hword
  refine ⟨?_, hproper.1, hproper.2, fun b hb => (hleaves b hb).1⟩
  have hreached := Server.Reaches.lexemes hread .start
  rwa [sources_append, List.nil_append] at hreached

/-- A word of a safe text that is no letter before a literal is one of its lexemes. -/
theorem exists_lexeme_of_isWordAt {lexemes : List Lexeme}
    (hread : readAll s.usesBackslashEscapes mode depth (front ++ (name ++ back)) = .ok lexemes)
    (h : Server.IsWordAt (.source s) front name back)
    (hafter : back.head? ≠ some Byte.apostrophe) :
    ∃ before after, lexemes = before ++ .word name :: after ∧ sources before = front ∧
      sources after = back := by
  obtain ⟨b, hb, hstart⟩ := h.starts
  obtain ⟨others, rfl⟩ := List.head?_eq_some_iff.mp hb
  rcases (h.reached.isPlace hread).cases hread with
    ⟨hspace, -⟩ | ⟨before, l, after, rfl, -, rfl, hsource⟩
  · rw [not_isSpace_of_isWordStart hstart] at hspace
    cases hspace
  obtain ⟨next, hread⟩ := readAll_suffix hread
  obtain ⟨hproper, hleaves, -, -⟩ := cons_of_readAll hread
  rcases word_or_opens hproper hleaves (hsource ▸ rfl) hstart with ⟨word, rfl⟩ | ⟨more, hmore⟩
  · obtain ⟨rfl, rfl⟩ := append_inj_of_isWord hproper.2 (fun c hc => (hleaves c hc).1) h.isWord
      h.stops hsource
    exact ⟨before, after, rfl, rfl, rfl⟩
  · have hword : Byte.isWord b = true := by simp [Byte.isWord, hstart]
    obtain ⟨-, rfl⟩ := append_inj_of_isWord (x := [b]) (y := Byte.apostrophe :: more)
      (List.forall_mem_singleton.mpr hword) (by
        intro c hc
        obtain rfl : Byte.apostrophe = c := Option.some.inj hc
        decide)
      h.isWord h.stops (hmore.symm.trans hsource)
    exact absurd rfl hafter

/-! ### Aliases and points before a word -/

theorem expectsAlias_eq_true_iff {expected : Bool} {l : Lexeme} :
    l.expectsAlias expected = true ↔
      expected = true ∧ l.isSpace = true ∨ ∃ keyword, l = .word keyword ∧ isAs keyword = true := by
  cases l <;> simp [expectsAlias, isSpace]

/-- After lexemes an alias is expected iff the keyword is among them, or before them, and only white
space comes after it. -/
theorem foldl_expectsAlias_iff {expected : Bool} {before : List Lexeme} :
    before.foldl (fun expected l => l.expectsAlias expected) expected = true ↔
      (expected = true ∧ ∀ l ∈ before, l.isSpace = true) ∨
      ∃ front keyword gap, before = front ++ .word keyword :: gap ∧ isAs keyword = true ∧
        ∀ l ∈ gap, l.isSpace = true := by
  induction before generalizing expected with
  | nil => simp
  | cons l rest ih =>
    rw [List.foldl_cons, ih, expectsAlias_eq_true_iff, List.forall_mem_cons]
    constructor
    · rintro (⟨⟨hexpected, hl⟩ | ⟨keyword, rfl, has⟩, hrest⟩ | ⟨front, keyword, gap, rfl, has, hgap⟩)
      · exact Or.inl ⟨hexpected, hl, hrest⟩
      · exact Or.inr ⟨[], keyword, rest, rfl, has, hrest⟩
      · exact Or.inr ⟨l :: front, keyword, gap, rfl, has, hgap⟩
    · rintro (⟨hexpected, hl, hrest⟩ | ⟨front, keyword, gap, hsplit, has, hgap⟩)
      · exact Or.inl ⟨Or.inl ⟨hexpected, hl⟩, hrest⟩
      · rcases List.cons_eq_append_iff.mp hsplit with ⟨rfl, hcons⟩ | ⟨front, rfl, rfl⟩
        · obtain ⟨rfl, rfl⟩ := List.cons.inj hcons
          exact Or.inl ⟨Or.inr ⟨keyword, rfl, has⟩, hgap⟩
        · exact Or.inr ⟨front, keyword, gap, rfl, has, hgap⟩

theorem Accepted.forall_proper {escapes : Bool} {lexemes : List Lexeme}
    (h : Accepted escapes mode depth lexemes) : ∀ l ∈ lexemes, l.Proper escapes mode := by
  induction h with
  | nil => exact List.forall_mem_nil _
  | cons hproper _ _ _ ih => exact List.forall_mem_cons.mpr ⟨hproper, ih⟩

theorem isSpace_of_forall_mem {escapes : Bool} {l : Lexeme} (hproper : l.Proper escapes mode)
    (h : ∀ b ∈ l.source, Byte.isSpace b = true) : l.isSpace = true := by
  obtain ⟨b, hb, hstart⟩ := hproper.head?
  obtain ⟨run, rfl⟩ := hstart.isSpace (h b (List.mem_of_head? hb))
  rfl

/-- A word that stands before a place of the text is among the lexemes before that place. -/
theorem exists_between {before after x y : List Lexeme} {keyword gap : Bytes}
    (hsplit : before ++ .word name :: after = x ++ .word keyword :: y) (hkeyword : keyword ≠ [])
    (hsources : sources before = sources x ++ (keyword ++ gap)) :
    ∃ z, before = x ++ .word keyword :: z ∧ sources z = gap := by
  rcases List.append_eq_append_iff.mp hsplit with ⟨z, rfl, -⟩ | ⟨z, rfl, hz⟩
  · have hlength := congrArg List.length hsources
    have hpos := List.length_pos_iff.mpr hkeyword
    simp only [sources_append, List.length_append] at hlength
    omega
  · rw [sources_append] at hsources
    have hown : sources z = keyword ++ gap := List.append_cancel_left hsources
    cases z with
    | nil => exact absurd hown.symm (List.append_ne_nil_of_left_ne_nil hkeyword _)
    | cons l z =>
      obtain ⟨rfl, rfl⟩ := List.cons.inj hz
      exact ⟨z, rfl, List.append_cancel_left (hown : keyword ++ sources z = keyword ++ gap)⟩

/-- White space and then a word do not close or open a literal. -/
theorem head?_gap_ne_apostrophe {escapes : Bool} {gap : Bytes} (rest : Bytes)
    (hgap : ∀ b ∈ gap, Byte.isSpace b = true) (hproper : (Lexeme.word name).Proper escapes mode) :
    (gap ++ (name ++ rest)).head? ≠ some Byte.apostrophe := by
  intro hhead
  cases gap with
  | cons b gap =>
    obtain rfl : b = Byte.apostrophe := Option.some.inj hhead
    exact absurd (hgap _ List.mem_cons_self) (by decide)
  | nil =>
    obtain ⟨b, hb, hstart⟩ := hproper.1
    rw [List.nil_append, List.head?_append, hb, Option.some_or] at hhead
    obtain rfl : b = Byte.apostrophe := Option.some.inj hhead
    exact absurd hstart (by decide)

theorem exists_keyword_of_isAliasAt {before after : List Lexeme}
    (hread : readAll s.usesBackslashEscapes mode depth text = .ok (before ++ .word name :: after))
    (h : Server.IsAliasAt (.source s) (sources before) (name ++ sources after)) :
    ∃ front keyword gap, before = front ++ .word keyword :: gap ∧ isAs keyword = true ∧
      ∀ l ∈ gap, l.isSpace = true := by
  obtain ⟨front, keyword, gap, hfront, has, hgap, hword⟩ := h
  obtain ⟨haccepted, -, hsources⟩ := readAll_eq_ok_iff.mp hread
  have hproper := haccepted.forall_proper
  have hafter := head?_gap_ne_apostrophe (sources after) hgap
    (hproper _ (List.mem_append_right _ List.mem_cons_self))
  have htext : text = front ++ (keyword ++ (gap ++ (name ++ sources after))) := by
    rw [← hsources, sources_append, hfront]
    simp only [List.append_assoc]
    rfl
  rw [htext] at hread
  obtain ⟨x, y, hsplit, rfl, -⟩ := exists_lexeme_of_isWordAt hread hword hafter
  have hkeyword : keyword ≠ [] := by
    rintro rfl
    cases has
  obtain ⟨z, rfl, rfl⟩ := exists_between hsplit hkeyword hfront
  refine ⟨x, keyword, z, rfl, has, fun l hl => ?_⟩
  exact isSpace_of_forall_mem
    (hproper l (List.mem_append_left _ (List.mem_append_right _ (List.mem_cons_of_mem _ hl))))
    fun b hb => hgap b (List.mem_flatMap.mpr ⟨l, hl, hb⟩)

theorem isAliasAt_of_keyword {front gap after : List Lexeme} {keyword : Bytes}
    (hread : readAll s.usesBackslashEscapes mode depth text
      = .ok (front ++ .word keyword :: (gap ++ .word name :: after)))
    (has : isAs keyword = true) (hgap : ∀ l ∈ gap, l.isSpace = true) :
    Server.IsAliasAt (.source s) (sources (front ++ .word keyword :: gap))
      (name ++ sources after) := by
  have hword := isWordAt_of_readAll hread
  rw [sources_append] at hword
  refine ⟨sources front, keyword, sources gap, sources_append _ _, has, ?_, hword⟩
  intro b hb
  obtain ⟨l, hl, hb⟩ := List.mem_flatMap.mp hb
  have hproper := (readAll_eq_ok_iff.mp hread).1.forall_proper l
    (List.mem_append_right _ (List.mem_cons_of_mem _ (List.mem_append_left _ hl)))
  cases l with
  | space run => exact hproper.2 b hb
  | _ => cases hgap _ hl

/-- A word of a safe text is an alias iff the lexemes before it make it one. -/
theorem isAliasAt_iff {before after : List Lexeme}
    (hread : readAll s.usesBackslashEscapes mode depth text = .ok (before ++ .word name :: after)) :
    Server.IsAliasAt (.source s) (sources before) (name ++ sources after) ↔
      before.foldl (fun expected l => l.expectsAlias expected) false = true := by
  rw [foldl_expectsAlias_iff]
  constructor
  · exact fun h => Or.inr (exists_keyword_of_isAliasAt hread h)
  · rintro (⟨hfalse, -⟩ | ⟨front, keyword, gap, rfl, has, hgap⟩)
    · cases hfalse
    · rw [List.append_assoc, List.cons_append] at hread
      exact isAliasAt_of_keyword hread has hgap

/-- Only a point ends in a point, where a word follows. -/
theorem getLast?_source_eq_dot_iff {escapes : Bool} {l : Lexeme} {rest : Bytes}
    (hproper : l.Proper escapes mode) (hleaves : l.Leaves rest)
    (hrest : ∃ b, rest.head? = some b ∧ Byte.isWord b = true) :
    l.source.getLast? = some Byte.dot ↔ l = .mark Byte.dot := by
  constructor
  · intro h
    obtain ⟨b, hb, hword⟩ := hrest
    have hmem := List.mem_of_getLast? h
    cases l with
    | space run => exact absurd (hproper.2 _ hmem) (by decide)
    | word name => exact absurd (hproper.2 _ hmem) (by decide)
    | national letter =>
      obtain rfl : letter = Byte.dot := Option.some.inj h
      rcases hproper with hletter | hletter <;> exact absurd hletter (by decide)
    | string parts | hexString letter digits | bitString letter digits =>
      rw [source, List.getLast?_concat] at h
      cases h
    | quotedName quote name =>
      rw [source, List.getLast?_concat] at h
      obtain rfl : quote = Byte.dot := Option.some.inj h
      exact absurd hproper.1 (by decide)
    | number number =>
      rw [hleaves b hb] at hword
      cases hword
    | placeholder place =>
      rcases isPlaceholder_of_proper hproper with rfl | ⟨sign, digits, rfl, -, hne, hdigits⟩
      · cases h
      · change (sign ++ digits).getLast? = _ at h
        rw [List.getLast?_append_of_ne_nil _ hne] at h
        exact absurd (hdigits _ (List.mem_of_getLast? h)) (by decide)
    | mark c => exact congrArg Lexeme.mark (Option.some.inj h)
  · rintro rfl
    rfl

theorem getLast?_sources_eq_dot_iff {before after : List Lexeme} {escapes : Bool}
    (hread : readAll escapes mode depth text = .ok (before ++ .word name :: after)) :
    (sources before).getLast? = some Byte.dot ↔
      before.foldl (fun _ l => l == .mark Byte.dot) false = true := by
  rcases List.eq_nil_or_concat before with rfl | ⟨front, l, rfl⟩
  · exact iff_of_false (fun h => by cases h) (fun h => by cases h)
  · rw [List.concat_eq_append, List.append_assoc, List.singleton_append] at hread
    obtain ⟨next, hread⟩ := readAll_suffix hread
    obtain ⟨hproper, hleaves, -, next, hrest⟩ := cons_of_readAll hread
    obtain ⟨⟨⟨b, hb, hstart⟩, -⟩, -⟩ := cons_of_readAll hrest
    have hfollows : ∃ b, (sources (.word name :: after)).head? = some b ∧ Byte.isWord b = true := by
      refine ⟨b, ?_, by simp [Byte.isWord, hstart]⟩
      rw [sources, List.flatMap_cons, List.head?_append]
      exact congrArg (Option.or · _) hb
    have hne : l.source ≠ [] := by
      obtain ⟨c, hc, -⟩ := hproper.head?
      rintro hempty
      rw [hempty] at hc
      cases hc
    rw [List.concat_eq_append, sources_concat, List.foldl_append,
      List.getLast?_append_of_ne_nil _ hne, getLast?_source_eq_dot_iff hproper hleaves hfollows]
    exact beq_iff_eq.symm

/-! ### Columns -/

theorem wordForm_eq_qualified_iff {afterAs afterDot : Bool} {following : List Lexeme} :
    wordForm s afterAs afterDot name following = .qualified ↔
      isAs name = false ∧ afterAs = false ∧ afterDot = false ∧ startsWithDot following = false ∧
        s.idents.allows name = false ∧ opensCall following = false := by
  unfold wordForm
  grind

/-- A word of a safe text takes a qualifier iff it names a column. -/
theorem isColumnAt_iff {before after : List Lexeme}
    (hread : readAll s.usesBackslashEscapes mode depth text = .ok (before ++ .word name :: after)) :
    IsColumnAt s (sources before) name (sources after) ↔
      wordForm s (before.foldl (fun expected l => l.expectsAlias expected) false)
        (before.foldl (fun _ l => l == .mark Byte.dot) false) name after = .qualified := by
  obtain ⟨next, hword⟩ := readAll_suffix hread
  obtain ⟨-, hleaves, -, next, hafter⟩ := cons_of_readAll hword
  obtain ⟨haccepted, -, -⟩ := readAll_eq_ok_iff.mp hafter
  rw [wordForm_eq_qualified_iff, ← Bool.not_eq_true (List.foldl _ _ _), ← isAliasAt_iff hread,
    ← Bool.not_eq_true (List.foldl _ _ _), ← getLast?_sources_eq_dot_iff hread,
    ← Bool.not_eq_true (startsWithDot _), haccepted.startsWithDot_iff,
    ← Bool.not_eq_true (opensCall _), haccepted.opensCall_iff]
  constructor
  · intro h
    exact ⟨h.notKeyword, h.notAlias, h.noDotBefore, h.noDotAfter, h.notListed, h.notCalled⟩
  · rintro ⟨hkeyword, halias, hbefore, hdot, hlisted, hcall⟩
    exact ⟨isWordAt_of_readAll hread, hlisted, hkeyword, halias, hbefore, hdot, hcall,
      fun hquote => (hleaves _ hquote).2 rfl⟩

theorem isColumn_eq_true_iff {afterAs afterDot : Bool} {following : List Lexeme} {l : Lexeme} :
    l.isColumn s afterAs afterDot following = true ↔
      ∃ name, l = .word name ∧ wordForm s afterAs afterDot name following = .qualified := by
  cases l <;> simp [isColumn]

theorem part_of_qualified {afterAs afterDot : Bool} (closing : Bool) {following : List Lexeme}
    (h : wordForm s afterAs afterDot name following = .qualified) :
    (Lexeme.word name).part s afterAs afterDot closing following
      = ⟨name, s.nameQuote :: name ++ [s.nameQuote], true⟩ := by
  simp [part, source, isSpace, fitted, isColumn, h, WordForm.text]

theorem text_of_isColumn {afterAs afterDot closing : Bool} {following : List Lexeme} {l : Lexeme}
    (h : (l.part s afterAs afterDot closing following).isColumn = true) :
    (l.part s afterAs afterDot closing following).text
      = s.nameQuote :: l.source ++ [s.nameQuote] := by
  obtain ⟨name, rfl, hform⟩ := isColumn_eq_true_iff.mp h
  rw [part_of_qualified closing hform]
  rfl

/-- The parts of a safe text that take a qualifier are the words that name a column. -/
theorem partsFrom_eq_append_iff {lexemes : List Lexeme}
    (hread : readAll s.usesBackslashEscapes mode depth text = .ok lexemes) :
    (∃ before own after, partsFrom s false false false lexemes = before ++ ⟨name, own, true⟩ :: after ∧
        before.flatMap FittedPart.source = front ∧ after.flatMap FittedPart.source = back) ↔
      front ++ (name ++ back) = text ∧ IsColumnAt s front name back := by
  constructor
  · rintro ⟨before, own, after, hparts, rfl, rfl⟩
    obtain ⟨x, l, y, closing, rfl, hpart, hbefore, hafter⟩ := exists_of_partsFrom_eq _ _ _ _ hparts
    rw [flatMap_source_eq hbefore, flatMap_source_eq hafter]
    obtain ⟨word, rfl, hform⟩ :=
      isColumn_eq_true_iff.mp (congrArg FittedPart.isColumn hpart).symm
    obtain rfl : name = word := congrArg FittedPart.source hpart
    refine ⟨?_, (isColumnAt_iff hread).mpr hform⟩
    rw [← (readAll_eq_ok_iff.mp hread).2.2, sources_append]
    rfl
  · rintro ⟨rfl, hcolumn⟩
    obtain ⟨x, y, rfl, rfl, rfl⟩ := exists_lexeme_of_isWordAt hread hcolumn.word hcolumn.notOpening
    obtain ⟨parts, closing, hparts, hsources⟩ :=
      exists_partsFrom_append s false false false x (.word name :: y)
    have hpart := part_of_qualified closing ((isColumnAt_iff hread).mp hcolumn)
    rw [partsFrom, hpart] at hparts
    exact ⟨parts, _, _, hparts, flatMap_source_eq hsources,
      flatMap_source_eq (map_source_partsFrom ..)⟩

end Lexeme

/-! ### Texts under a qualifier -/

/-- What a qualifier does to a fitted text, part by part. The parts are what becomes of the lexemes
that the text is read as, so they fix where each word of the text stands in the fitted ones. -/
structure Qualifies (s : Settings) (mode : SafeMode) (lead text bare full : Bytes)
    (parts : List FittedPart) : Prop where
  parts_eq : ∃ lexemes, Lexeme.readAll s.usesBackslashEscapes mode 0 text = .ok lexemes ∧
    parts = Lexeme.partsFrom s false false false lexemes
  source_eq : parts.flatMap FittedPart.source = text
  source_ne : ∀ part ∈ parts, part.source ≠ []
  bare_eq : parts.flatMap FittedPart.text = bare
  /-- The qualifier stands before the columns; any other part is as it is without a qualifier. -/
  full_eq : parts.flatMap (FittedPart.under lead) = full
  /-- A column is what it was read from, between quotes. -/
  quoted : ∀ part ∈ parts, part.isColumn = true →
    part.text = s.nameQuote :: part.source ++ [s.nameQuote]
  /-- The server comes to each part outside literals and names. -/
  outside : ∀ before after, parts = before ++ after →
    (Region.after s.reader .code (before.flatMap (FittedPart.under lead))).isOutside = true
  column_iff : ∀ front name back,
    (∃ before own after, parts = before ++ ⟨name, own, true⟩ :: after ∧
        before.flatMap FittedPart.source = front ∧ after.flatMap FittedPart.source = back) ↔
      front ++ (name ++ back) = text ∧ IsColumnAt s front name back

theorem FittedPart.under_nil (part : FittedPart) : part.under [] = part.text := by
  unfold under
  split <;> rfl

theorem Lexeme.IsPlaceholder.reads {rd : Reader} {place : Bytes} (h : IsPlaceholder place) :
    Region.Reads rd place place := by
  have hsign (b : UInt8) (hb : b = Byte.question ∨ b = Byte.dollar ∨ b = Byte.commercialAt) :
      b ≠ Byte.apostrophe ∧ b ≠ rd.quote := by
    rcases hb with rfl | rfl | rfl <;> rcases rd.quote_eq with hq | hq <;> rw [hq] <;> decide
  apply Region.Reads.plain
  rcases h with rfl | ⟨sign, digits, rfl, hform, -, hdigits⟩
  · exact List.forall_mem_singleton.mpr (hsign _ (Or.inl rfl))
  · refine List.forall_mem_append.mpr ⟨?_, fun b hb =>
      ne_quote_of_isTame (isTame_of_isDigit (hdigits b hb))⟩
    rcases hform with rfl | rfl | rfl
    · exact List.forall_mem_singleton.mpr (hsign _ (Or.inr (Or.inl rfl)))
    all_goals
      exact List.forall_mem_cons.mpr ⟨hsign _ (Or.inr (Or.inr rfl)),
        List.forall_mem_singleton.mpr (ne_quote_of_isTame (by decide))⟩

/-- A part of a text, in any mode, leaves no literal and no name open. -/
theorem Lexeme.exists_reads_under {s : Settings} {mode : SafeMode} {l : Lexeme}
    (qualifier : Option String) (afterAs afterDot closing : Bool) (following : List Lexeme)
    (hproper : l.Proper s.usesBackslashEscapes mode) :
    ∃ code, Region.Reads s.reader
      ((l.part s afterAs afterDot closing following).under (Name.lead s.nameQuote qualifier))
      code := by
  rw [under_part]
  split
  · exact ⟨[], .nil⟩
  -- only placeholders are proper in one mode and not in another
  have hchunk : l.Proper s.usesBackslashEscapes .chunk ∨ ∃ place, l = .placeholder place := by
    cases l with
    | placeholder place => exact Or.inr ⟨place, rfl⟩
    | _ => exact Or.inl hproper
  rcases hchunk with hchunk | ⟨place, rfl⟩
  · obtain ⟨code, hread, -⟩ := reads_fitted qualifier afterAs afterDot following (by decide) hchunk
    exact ⟨code, hread⟩
  · exact ⟨place, (isPlaceholder_of_proper hproper).reads⟩

theorem isOutside_flatMap_under {s : Settings} {lead : Bytes} {parts : List FittedPart}
    (h : ∀ part ∈ parts, ∃ code, Region.Reads s.reader (part.under lead) code) :
    (Region.after s.reader .code (parts.flatMap (FittedPart.under lead))).isOutside = true := by
  induction parts using List.reverseRecOn with
  | nil => rfl
  | append_singleton parts part ih =>
    obtain ⟨hparts, hpart⟩ := List.forall_mem_append.mp h
    obtain ⟨code, hread⟩ := hpart part (List.mem_singleton_self part)
    rw [List.flatMap_append, List.flatMap_singleton, Region.after_append]
    exact hread.ends _ (ih hparts)

theorem qualifies_of_readAll {s : Settings} {mode : SafeMode} {text : Bytes}
    {lexemes : List Lexeme} (hread : Lexeme.readAll s.usesBackslashEscapes mode 0 text = .ok lexemes)
    (qualifier : Option String) :
    Qualifies s mode (Name.lead s.nameQuote qualifier) text
      (Lexeme.fittedFrom s [] false false false lexemes)
      (Lexeme.fittedFrom s (Name.lead s.nameQuote qualifier) false false false lexemes)
      (Lexeme.partsFrom s false false false lexemes) := by
  obtain ⟨haccepted, -, hsources⟩ := Lexeme.readAll_eq_ok_iff.mp hread
  have hmem (part : FittedPart) (hpart : part ∈ Lexeme.partsFrom s false false false lexemes) :
      ∃ l ∈ lexemes, ∃ afterAs afterDot closing following,
        part = l.part s afterAs afterDot closing following := by
    obtain ⟨before, after, hsplit⟩ := List.append_of_mem hpart
    obtain ⟨front, l, back, closing, rfl, hl, -, -⟩ :=
      Lexeme.exists_of_partsFrom_eq _ _ _ _ hsplit
    exact ⟨l, List.mem_append_right _ List.mem_cons_self, _, _, _, _, hl⟩
  constructor
  case parts_eq => exact ⟨lexemes, hread, rfl⟩
  case source_eq =>
    rw [Lexeme.flatMap_source_eq (Lexeme.map_source_partsFrom ..)]
    exact hsources
  case source_ne =>
    intro part hpart
    obtain ⟨l, hl, _, _, _, _, rfl⟩ := hmem part hpart
    obtain ⟨b, hb, -⟩ := (haccepted.forall_proper l hl).head?
    intro hempty
    rw [show l.source = [] from hempty] at hb
    cases hb
  case bare_eq => rw [Lexeme.fittedFrom_eq_flatMap, ← funext FittedPart.under_nil]
  case full_eq => exact (Lexeme.fittedFrom_eq_flatMap ..).symm
  case quoted =>
    intro part hpart hcolumn
    obtain ⟨l, -, _, _, _, _, rfl⟩ := hmem part hpart
    exact Lexeme.text_of_isColumn hcolumn
  case outside =>
    intro before after hsplit
    refine isOutside_flatMap_under fun part hpart => ?_
    obtain ⟨l, hl, _, _, _, _, rfl⟩ := hmem part (hsplit ▸ List.mem_append_left _ hpart)
    exact Lexeme.exists_reads_under qualifier _ _ _ _ (haccepted.forall_proper l hl)
  case column_iff => exact fun front name back => Lexeme.partsFrom_eq_append_iff hread

/-- A text is refused under a qualifier iff it is refused without one, with the same error. If it is
not, then the qualifier is written once, and a point after it, directly before the opening quote of
each word that names a column without saying whose, and nowhere else. -/
theorem sanitize_qualified {q : String} (hq : q ≠ "") (text : String) (s : Settings)
    (mode : SafeMode) :
    (∀ e, sanitize text (some q) s mode = .error e ↔ sanitize text none s mode = .error e) ∧
    ∀ bare, sanitize text none s mode = .ok bare →
      ∃ full parts, sanitize text (some q) s mode = .ok full ∧
        Qualifies s mode (Name.writeDotted s.nameQuote q ++ [Byte.dot]) (utf8 text) (utf8 bare)
          (utf8 full) parts := by
  refine ⟨fun e => sanitize_eq_error_congr rfl text _ _ mode e, fun bare hbare => ?_⟩
  obtain ⟨lexemes, hread, hout⟩ := fitText_eq_ok_iff.mp (sanitize_eq_ok_iff.mp hbare)
  have hfull : fitText (some q) s mode (utf8 text) = .ok
      (Lexeme.fittedFrom s (Name.lead s.nameQuote (some q)) false false false lexemes) :=
    fitText_eq_ok_iff.mpr ⟨lexemes, hread, rfl⟩
  obtain ⟨full, hutf8⟩ := isText_fitText (isText_utf8 text) hfull
  rw [← hutf8] at hfull
  have hlead : Name.lead s.nameQuote (some q) = Name.writeDotted s.nameQuote q ++ [Byte.dot] := by
    simp [Name.lead, hq]
  have hqualifies := qualifies_of_readAll hread (some q)
  have hbytes : Lexeme.fittedFrom s [] false false false lexemes = utf8 bare := hout.symm
  rw [hbytes, ← hutf8, hlead] at hqualifies
  exact ⟨full, _, sanitize_eq_ok_iff.mpr hfull, hqualifies⟩

/-- Two columns among a dotted name, a call, an alias and a name in quotes. -/
theorem sanitize_qualified_select :
    let s := Settings.ofDialect .postgres
    let text := "a.b, max (c) AS d, \"e\", f"
    "u.v" ≠ "" ∧ sanitize text none s .chunk = .ok "\"a\".\"b\", max(\"c\") AS d, \"e\", \"f\"" ∧
    ∃ full parts, sanitize text (some "u.v") s .chunk = .ok full ∧
      full = "\"a\".\"b\", max(\"u\".\"v\".\"c\") AS d, \"e\", \"u\".\"v\".\"f\"" ∧
      Qualifies s .chunk (Name.writeDotted s.nameQuote "u.v" ++ [Byte.dot]) (utf8 text)
        (utf8 "\"a\".\"b\", max(\"c\") AS d, \"e\", \"f\"") (utf8 full) parts := by
  intro s text
  have hbare : sanitize text none s .chunk
      = .ok "\"a\".\"b\", max(\"c\") AS d, \"e\", \"f\"" := by decide +kernel
  have hqualified : sanitize text (some "u.v") s .chunk
      = .ok "\"a\".\"b\", max(\"u\".\"v\".\"c\") AS d, \"e\", \"u\".\"v\".\"f\"" := by
    decide +kernel
  have hname : "u.v" ≠ "" := by decide
  obtain ⟨full, parts, hfull, hqualifies⟩ :=
    (sanitize_qualified hname text s .chunk).2 _ hbare
  refine ⟨hname, hbare, full, parts, hfull, ?_, hqualifies⟩
  exact Except.ok.inj (hfull.symm.trans hqualified)

end SqlTemplate
