import SqlTemplate.Proofs.SafeText

/-!
# Words that stand bare

What a server takes for a keyword, a column or a function in a checked text is a word outside
literals and names. `Permitted` lists what such a word may be: the word lists of the settings decide,
apart from `AS`, from an alias after it, and from the letter before a literal. A run of word bytes
that is no word of the text that was checked is the exponent of a number. The main statement is
`permitted_of_sanitize`.

One seam is left out of it. Where hexadecimal literals are written as numbers, an `AS` that follows
one directly becomes part of the run of the literal (`FollowsGluedAs`), and the alias after it is
bare without an `AS` of its own before it.
-/

namespace SqlTemplate

open Region

/-! ### Bare words -/

/-- Between the texts `front` and `back` stands a word: a maximal run of word bytes that starts as a
word does, outside literals and names. -/
structure BareWord (rd : Reader) (front run back : Bytes) : Prop where
  outside : (after rd .code front).isOutside = true
  starts : ∃ b, run.head? = some b ∧ Byte.isWordStart b = true
  isWord : ∀ b ∈ run, Byte.isWord b = true
  left : ∀ b, front.getLast? = some b → Byte.isWord b = false
  right : ∀ b, back.head? = some b → Byte.isWord b = false

theorem bareWord_iff {rd : Reader} {front run back : Bytes} :
    BareWord rd front run back ↔
      (after rd .code front).isOutside = true ∧ run.head?.any Byte.isWordStart = true ∧
        run.all Byte.isWord = true ∧ front.getLast?.all (!Byte.isWord ·) = true ∧
        back.head?.all (!Byte.isWord ·) = true := by
  simp only [Option.any_eq_true, List.all_eq_true, Option.all_eq_true, Bool.not_eq_true']
  exact ⟨fun h => ⟨h.outside, h.starts, h.isWord, h.left, h.right⟩,
    fun ⟨outside, starts, isWord, left, right⟩ => ⟨outside, starts, isWord, left, right⟩⟩

instance (rd : Reader) (front run back : Bytes) : Decidable (BareWord rd front run back) :=
  decidable_of_iff' _ bareWord_iff

/-- The run of word bytes before the white space at the end of a text. -/
def lastRun (front : Bytes) : Bytes := trailingRun (front.rdropWhile Byte.isSpace)

/-- Only white space separates what follows from the keyword before an alias. -/
def FollowsAs (front : Bytes) : Prop := Lexeme.isAs (lastRun front) = true

instance (front : Bytes) : Decidable (FollowsAs front) := inferInstanceAs (Decidable (_ = _))

/-- Only white space separates what follows from the keyword before an alias, which has run together
with a hexadecimal literal that is written as a number: whole bytes, where no word is before. -/
def FollowsGluedAs (s : Settings) (front : Bytes) : Prop :=
  s.family = .mssql ∧ ∃ before digits keyword gap,
    front = before ++ (utf8 "0x" ++ digits) ++ (keyword ++ gap) ∧ ScansTo s before .clear ∧
      (∀ b ∈ digits, Byte.isHexDigit b = true) ∧ digits.length % 2 = 0 ∧
      Lexeme.isAs keyword = true ∧ ∀ b ∈ gap, Byte.isSpace b = true

/-- What a bare word in a safe text may be. -/
inductive Permitted (s : Settings) (front run back : Bytes) : Prop
  | keyword (has : Lexeme.isAs run = true)
  | name (hallows : s.idents.allows run = true)
  | function (hallows : s.functions.allows run = true) (hcall : back.head? = some Byte.openParen)
  | aliased (has : FollowsAs front) (hcall : ¬ OpensCall back)
  | literal {letter : UInt8} (hrun : run = [letter]) (hletter : isPrefixLetter letter = true)
      (hquote : back.head? = some Byte.apostrophe)

/-- A run of word bytes is the exponent of a number, or its letter alone before a sign, and follows
the point of the number directly: the digits before the point are those the number starts with. -/
def IsExponentAfterPoint (s : Settings) (front run back : Bytes) : Prop :=
  ∃ before letter digits, front = before ++ [Byte.dot] ∧ ScansTo s before .whole ∧
    run = letter :: digits ∧ (letter = 0x65 ∨ letter = 0x45) ∧
    (∀ b ∈ digits, Byte.isDigit b = true) ∧
    (digits ≠ [] ∨ ∃ sign d rest, back = sign :: d :: rest ∧
      (sign = Byte.plus ∨ sign = Byte.minus) ∧ Byte.isDigit d = true)

/-- What is shown of each bare word of a safe text. -/
def Allowed (s : Settings) (front run back : Bytes) : Prop :=
  Permitted s front run back ∨ IsExponentAfterPoint s front run back ∨
    FollowsGluedAs s front ∧ ¬ OpensCall back

/-! ### Words that start in a part of a text -/

/-- Every bare word that starts in `text`, between `before` and `following`, is allowed. -/
def WordsAllowed (s : Settings) (before text following : Bytes) : Prop :=
  ∀ x y run back, text = x ++ y → y ≠ [] → y ++ following = run ++ back →
    BareWord s.reader (before ++ x) run back → Allowed s (before ++ x) run back

variable {s : Settings}

theorem wordsAllowed_nil (before following : Bytes) : WordsAllowed s before [] following := by
  intro x y run back htext hy
  exact absurd (List.append_eq_nil_iff.mp htext.symm).2 hy

theorem WordsAllowed.append {before u v following : Bytes}
    (hu : WordsAllowed s before u (v ++ following)) (hv : WordsAllowed s (before ++ u) v following) :
    WordsAllowed s before (u ++ v) following := by
  intro x y run back htext hy hrun hword
  have hlater (z : Bytes) (hx : x = u ++ z) (hz : v = z ++ y) :
      Allowed s (before ++ x) run back := by
    subst hx
    rw [← List.append_assoc] at hword ⊢
    exact hv z y run back hz hy hrun hword
  rcases List.append_eq_append_iff.mp htext with ⟨z, hx, hz⟩ | ⟨z, hx, hz⟩
  · exact hlater z hx hz
  · by_cases hempty : z = []
    · subst hempty
      exact hlater [] (by simpa using hx.symm) hz.symm
    · refine hu x z run back hx hempty ?_ hword
      rw [← hrun, hz, List.append_assoc]

/-- No word starts where no byte outside quotes starts one. -/
theorem Region.Reads.wordsAllowed {before text code following : Bytes}
    (h : Reads s.reader text code) (hcode : ∀ b ∈ code, Byte.isWordStart b = false)
    (hout : (after s.reader .code before).isOutside = true) :
    WordsAllowed s before text following := by
  intro x y run back htext hy hrun hword
  obtain ⟨b, hb, hstart⟩ := hword.starts
  obtain ⟨rest, rfl⟩ : ∃ rest, y = b :: rest := by
    cases y with
    | nil => exact absurd rfl hy
    | cons c rest =>
      have hhead := congrArg List.head? hrun
      rw [List.head?_append, List.head?_append, hb, List.head?_cons, Option.some_or,
        Option.some_or] at hhead
      exact ⟨rest, by rw [Option.some.inj hhead]⟩
  have hquote : b ≠ Byte.apostrophe ∧ b ≠ s.reader.quote :=
    ne_quote_of_isTame (isTame_of_isWord (by simp [Byte.isWord, hstart]))
  have hcodeAt : after s.reader (after s.reader .code before) (x ++ [b]) = .code := by
    rw [← after_append, ← List.append_assoc, after_append, after_cons, after_nil,
      step_of_isOutside hword.outside]
    exact enter_eq_code.mpr hquote
  have hmem := mem_codeBytes_of_after hcodeAt (y := rest)
  rw [← htext, h.code_eq _ hout] at hmem
  rw [hcode b hmem] at hstart
  cases hstart

/-- A word that starts in a run of word bytes starts it. -/
theorem wordsAllowed_run {before text following : Bytes}
    (htext : ∀ b ∈ text, Byte.isWord b = true)
    (hfirst : ∀ run back, text ++ following = run ++ back → BareWord s.reader before run back →
      Allowed s before run back) :
    WordsAllowed s before text following := by
  intro x y run back hsplit hy hrun hword
  rcases List.eq_nil_or_concat x with rfl | ⟨x, b, rfl⟩
  · rw [List.append_nil] at hword ⊢
    rw [List.nil_append] at hsplit
    exact hfirst run back (hsplit ▸ hrun) hword
  · have hb : Byte.isWord b = true := by
      apply htext
      rw [hsplit, List.concat_eq_append]
      simp
    have hlast := hword.left b (by rw [List.concat_eq_append, ← List.append_assoc]; simp)
    rw [hb] at hlast
    cases hlast

/-- A run that does not start as a word does has no word in it. -/
theorem wordsAllowed_run_of_head {before text following : Bytes}
    (htext : ∀ b ∈ text, Byte.isWord b = true)
    (hhead : ∃ b, text.head? = some b ∧ Byte.isWordStart b = false) :
    WordsAllowed s before text following := by
  apply wordsAllowed_run htext
  intro run back hrun hword
  obtain ⟨b, hb, hstart⟩ := hword.starts
  obtain ⟨c, hc, hnone⟩ := hhead
  have heq := congrArg List.head? hrun
  rw [List.head?_append, hc, List.head?_append, hb, Option.some_or, Option.some_or] at heq
  rw [Option.some.inj heq, hstart] at hnone
  cases hnone

/-- A run of word bytes that no word byte follows is the only word that may start in it. -/
theorem wordsAllowed_word {before text following : Bytes}
    (htext : ∀ b ∈ text, Byte.isWord b = true)
    (hstop : ∀ b, following.head? = some b → Byte.isWord b = false)
    (hword : BareWord s.reader before text following → Allowed s before text following) :
    WordsAllowed s before text following := by
  apply wordsAllowed_run htext
  intro run back hrun hbare
  obtain ⟨htake, hdrop⟩ := Lexeme.takeWhile_append_stop htext hstop
  obtain ⟨htake', hdrop'⟩ := Lexeme.takeWhile_append_stop hbare.isWord hbare.right
  rw [hrun] at htake hdrop
  obtain rfl : text = run := htake.symm.trans htake'
  obtain rfl : following = back := hdrop.symm.trans hdrop'
  exact hword hbare

/-! ### What precedes a word -/

theorem lastRun_append_space {before run : Bytes} (h : ∀ b ∈ run, Byte.isSpace b = true) :
    lastRun (before ++ run) = lastRun before := by
  induction run using List.reverseRecOn with
  | nil => rw [List.append_nil]
  | append_singleton run b ih =>
    obtain ⟨hrun, hb⟩ := List.forall_mem_append.mp h
    rw [← List.append_assoc, lastRun,
      List.rdropWhile_concat_pos _ _ _ (hb b (List.mem_singleton_self b))]
    exact ih hrun

theorem isAs_cases {name : Bytes} (h : Lexeme.isAs name = true) :
    name = [0x41, 0x53] ∨ name = [0x61, 0x73] := by
  simpa [Lexeme.isAs] using h

theorem lastRun_append_as {name : Bytes} (before : Bytes) (h : Lexeme.isAs name = true) :
    lastRun (before ++ name) = trailingRun before ++ name := by
  obtain ⟨a, b, rfl, hspace, hword⟩ : ∃ a b, name = [a, b] ∧ Byte.isSpace b = false ∧
      ∀ c ∈ [a, b], Byte.isWord c = true := by
    rcases isAs_cases h with rfl | rfl
    · exact ⟨0x41, 0x53, rfl, by decide,
        List.forall_mem_cons.mpr ⟨by decide, List.forall_mem_singleton.mpr (by decide)⟩⟩
    · exact ⟨0x61, 0x73, rfl, by decide,
        List.forall_mem_cons.mpr ⟨by decide, List.forall_mem_singleton.mpr (by decide)⟩⟩
  rw [← trailingRun_append hword, lastRun]
  have hsplit : before ++ [a, b] = (before ++ [a]) ++ [b] := by simp
  rw [hsplit, List.rdropWhile_concat_neg _ _ _ (by simp [hspace])]

theorem FollowsGluedAs.append_space {front run : Bytes} (h : FollowsGluedAs s front)
    (hrun : ∀ b ∈ run, Byte.isSpace b = true) : FollowsGluedAs s (front ++ run) := by
  obtain ⟨hfamily, before, digits, keyword, gap, rfl, hbefore, hdigits, heven, has, hgap⟩ := h
  exact ⟨hfamily, before, digits, keyword, gap ++ run, by simp only [List.append_assoc], hbefore,
    hdigits, heven, has, List.forall_mem_append.mpr ⟨hgap, hrun⟩⟩

/-- The keyword before an alias is a word, or it has run together with a literal. -/
theorem ScansTo.followsAs {before name : Bytes} (h : ScansTo s before .clear)
    (has : Lexeme.isAs name = true) :
    FollowsAs (before ++ name) ∨ FollowsGluedAs s (before ++ name) := by
  have hword (hrun : trailingRun before = []) : FollowsAs (before ++ name) := by
    rwa [FollowsAs, lastRun_append_as before has, hrun, List.nil_append]
  cases hlast : before.getLast? with
  | none => exact Or.inl (hword (by rw [List.getLast?_eq_none_iff.mp hlast]; rfl))
  | some b =>
    cases hb : Byte.isWord b with
    | false => exact Or.inl (hword (trailingRun_of_getLast? hlast hb))
    | true =>
      obtain ⟨front, digits, rfl, hfront, hfamily, hdigits, heven⟩ := h.exists_literal hlast hb
      exact Or.inr ⟨hfamily, front, digits, name, [], by rw [List.append_nil], hfront, hdigits,
        heven, has, List.forall_mem_nil _⟩

/-! ### The words of a lexeme -/

namespace Lexeme

variable {mode : SafeMode} {afterAs afterDot closing : Bool} {lead : Bytes}

/-- A letter before digits between apostrophes marks a literal. -/
theorem wordsAllowed_prefixed {before digits following : Bytes} {letter : UInt8}
    (hletter : isPrefixLetter letter = true) (hdigits : ∀ b ∈ digits, Byte.isWord b = true)
    (hout : (after s.reader .code before).isOutside = true) :
    WordsAllowed s before (letter :: Byte.apostrophe :: digits ++ [Byte.apostrophe]) following := by
  have hword : ∀ b ∈ [letter], Byte.isWord b = true :=
    List.forall_mem_singleton.mpr (isWord_of_isPrefixLetter hletter)
  have hletterOut : (after s.reader .code (before ++ [letter])).isOutside = true := by
    rw [after_append]
    exact (reads_tame fun b hb => isTame_of_isWord (hword b hb)).ends _ hout
  refine WordsAllowed.append (u := [letter]) (wordsAllowed_word hword ?_ ?_)
    ((reads_digits hdigits).wordsAllowed (List.forall_mem_nil _) hletterOut)
  · intro b hb
    obtain rfl : Byte.apostrophe = b := Option.some.inj hb
    decide
  · exact fun _ => Or.inl (.literal rfl hletter rfl)

theorem not_isWordStart_of_isSpace {b : UInt8} (h : Byte.isSpace b = true) :
    Byte.isWordStart b = false := by
  grind [Byte.isSpace, Byte.isWordStart, Byte.isLetter]

theorem isOutside_append {before text : Bytes} (htext : ∀ b ∈ text, isTame b = true)
    (hout : (after s.reader .code before).isOutside = true) :
    (after s.reader .code (before ++ text)).isOutside = true := by
  rw [after_append]
  exact (reads_tame htext).ends _ hout

/-- A word starts behind a fraction only if that is the point alone: digits are word bytes. -/
theorem eq_dot_of_left {before whole fraction : Bytes} (hne : whole ≠ [])
    (hwhole : ∀ b ∈ whole, Byte.isDigit b = true) (hfraction : IsFraction fraction)
    (hleft : ∀ b, (before ++ (whole ++ fraction)).getLast? = some b → Byte.isWord b = false) :
    fraction = [Byte.dot] := by
  have hlast (front : Bytes) {digit : UInt8} (hdigit : Byte.isDigit digit = true)
      (h : before ++ (whole ++ fraction) = front ++ [digit]) : False := by
    have hnone := hleft digit (by rw [h, List.getLast?_concat])
    rw [isWord_of_isDigit hdigit] at hnone
    cases hnone
  rcases hfraction with rfl | ⟨digits, rfl, hdigits⟩
  · obtain ⟨front, d, rfl⟩ := (List.eq_nil_or_concat whole).resolve_left hne
    rw [List.concat_eq_append] at *
    exact (hlast (before ++ front) (hwhole d (by simp)) (by simp)).elim
  · rcases List.eq_nil_or_concat digits with rfl | ⟨others, c, rfl⟩
    · rfl
    · rw [List.concat_eq_append] at *
      exact (hlast (before ++ (whole ++ Byte.dot :: others)) (hdigits c (by simp)) (by simp)).elim

theorem wordsAllowed_exponent {before whole fraction exponent following : Bytes} (hne : whole ≠ [])
    (hwhole : ∀ b ∈ whole, Byte.isDigit b = true) (hfraction : IsFraction fraction)
    (hexponent : IsExponent exponent) (hbefore : ScansTo s before .clear)
    (hout : (after s.reader .code (before ++ (whole ++ fraction))).isOutside = true)
    (hstop : ∀ b, following.head? = some b → Byte.isWord b = false) :
    WordsAllowed s (before ++ (whole ++ fraction)) exponent following := by
  rcases hexponent with rfl | ⟨letter, sign, digits, rfl, hletter, hsign, hdigits, hdigit⟩
  · exact wordsAllowed_nil _ _
  have hletterWord : Byte.isWord letter = true := by rcases hletter with rfl | rfl <;> decide
  -- the letter is a word only behind a point, and then it follows the first digits of the number
  have hpoint {run back : Bytes}
      (hbare : BareWord s.reader (before ++ (whole ++ fraction)) run back) :
      before ++ (whole ++ fraction) = before ++ whole ++ [Byte.dot] := by
    rw [eq_dot_of_left hne hwhole hfraction hbare.left, List.append_assoc]
  have hstart : ScansTo s (before ++ whole) .whole := hbefore.digits hne hwhole
  have hsigned : ∀ b : UInt8, Byte.isWord b = false → isTame b = true →
      (b = Byte.plus ∨ b = Byte.minus) → sign = [b] →
      WordsAllowed s (before ++ (whole ++ fraction)) (letter :: (sign ++ digits)) following := by
    rintro b hb htame hform rfl
    obtain ⟨d, rest, rfl⟩ := List.exists_cons_of_ne_nil hdigits
    refine WordsAllowed.append (u := [letter])
      (wordsAllowed_word (List.forall_mem_singleton.mpr hletterWord) ?_ ?_) ?_
    · intro c hc
      obtain rfl : b = c := Option.some.inj hc
      exact hb
    · intro hbare
      exact Or.inr (Or.inl ⟨before ++ whole, letter, [], hpoint hbare, hstart, rfl, hletter,
        List.forall_mem_nil _, Or.inr ⟨b, d, rest ++ following, rfl, hform,
          hdigit d List.mem_cons_self⟩⟩)
    · have htail : ∀ c ∈ b :: d :: rest, isTame c = true :=
        List.forall_mem_cons.mpr ⟨htame, fun c hc => isTame_of_isDigit (hdigit c hc)⟩
      refine (reads_tame htail).wordsAllowed (List.forall_mem_cons.mpr ⟨?_, fun c hc =>
        not_isWordStart_of_isDigit (hdigit c hc)⟩)
        (isOutside_append (List.forall_mem_singleton.mpr (isTame_of_isWord hletterWord)) hout)
      rw [Byte.isWord, Bool.or_eq_false_iff] at hb
      exact hb.1
  rcases hsign with rfl | rfl | rfl
  · have hword : ∀ b ∈ letter :: ([] ++ digits), Byte.isWord b = true :=
      List.forall_mem_cons.mpr ⟨hletterWord, fun b hb => isWord_of_isDigit (hdigit b hb)⟩
    refine wordsAllowed_word hword hstop ?_
    intro hbare
    exact Or.inr (Or.inl ⟨before ++ whole, letter, digits, hpoint hbare, hstart, rfl, hletter,
      hdigit, Or.inl hdigits⟩)
  · exact hsigned Byte.plus (by decide) (by decide) (Or.inl rfl) rfl
  · exact hsigned Byte.minus (by decide) (by decide) (Or.inr rfl) rfl

/-- The only word that may start in a number is its exponent, behind its point. -/
theorem wordsAllowed_number {before text following : Bytes} (h : IsNumber text)
    (hbefore : ScansTo s before .clear)
    (hout : (after s.reader .code before).isOutside = true)
    (hstop : ∀ b, following.head? = some b → Byte.isWord b = false) :
    WordsAllowed s before text following := by
  rcases h.isWord_or with
    hword | ⟨whole, fraction, exponent, rfl, hne, hwhole, hfraction, hexponent⟩
  · obtain ⟨first, hfirst, hdigit⟩ := h.head?
    exact wordsAllowed_run_of_head hword ⟨first, hfirst, not_isWordStart_of_isDigit hdigit⟩
  · obtain ⟨first, hfirst, hdigit⟩ := head?_of_forall_mem hne hwhole
    have hwholeOut := isOutside_append (fun b hb => isTame_of_isDigit (hwhole b hb)) hout
    have hfractionTame : ∀ b ∈ fraction, isTame b = true ∧ Byte.isWordStart b = false := by
      rcases hfraction with rfl | ⟨digits, rfl, hdigits⟩
      · exact List.forall_mem_nil _
      · exact List.forall_mem_cons.mpr ⟨by decide, fun b hb =>
          ⟨isTame_of_isDigit (hdigits b hb), not_isWordStart_of_isDigit (hdigits b hb)⟩⟩
    have hbeforeExponent := isOutside_append (fun b hb => (hfractionTame b hb).1) hwholeOut
    have hexponentWords := wordsAllowed_exponent hne hwhole hfraction hexponent hbefore
      (by rwa [← List.append_assoc]) hstop
    rw [← List.append_assoc] at hexponentWords
    refine (wordsAllowed_run_of_head (fun b hb => isWord_of_isDigit (hwhole b hb))
      ⟨first, hfirst, not_isWordStart_of_isDigit hdigit⟩).append (.append ?_ hexponentWords)
    exact (reads_tame fun b hb => (hfractionTame b hb).1).wordsAllowed
      (fun b hb => (hfractionTame b hb).2) hwholeOut

/-- The words that a word of the text becomes. -/
theorem wordsAllowed_text {name before : Bytes} {depth : Nat} {rest : List Lexeme}
    {qualifier : Option String} {mode : SafeMode}
    (hproper : (Lexeme.word name).Proper s.usesBackslashEscapes mode)
    (hleaves : (Lexeme.word name).Leaves (sources rest))
    (hrest : Accepted s.usesBackslashEscapes mode depth rest)
    (hout : (after s.reader .code before).isOutside = true)
    (hafter : afterAs = true → FollowsAs before ∨ FollowsGluedAs s before) :
    WordsAllowed s before
      ((Lexeme.word name).fitted s (Name.lead s.nameQuote qualifier) afterAs afterDot rest)
      (fittedFrom s (Name.lead s.nameQuote qualifier) (isAs name) false
        ((Lexeme.word name).closesUp s afterAs afterDot rest) rest) := by
  have hstop {closing : Bool} (hclosing : closing = true → opensCall rest = true) :
      ∀ b, (fittedFrom s (Name.lead s.nameQuote qualifier) (isAs name) false closing rest).head?
        = some b → Byte.isWord b = false :=
    not_isWord_head?_fittedFrom hrest (fun b hb => (hleaves b hb).1) hclosing
  simp only [fitted, closesUp]
  cases hform : wordForm s afterAs afterDot name rest with
  | bare =>
    refine wordsAllowed_word hproper.2 (hstop (absurd · Bool.false_ne_true)) ?_
    intro hbare
    rcases wordForm_eq_bare hform with has | ⟨halias, hcall⟩ | hallows
    · exact Or.inl (.keyword has)
    · have hnone : ¬ OpensCall (fittedFrom s (Name.lead s.nameQuote qualifier) (isAs name) false
          false rest) := by
        rw [opensCall_fittedFrom_iff s qualifier _ _ hrest, ← hrest.opensCall_iff, hcall]
        exact Bool.false_ne_true
      rcases hafter halias with has | hglued
      · exact Or.inl (.aliased has hnone)
      · exact Or.inr (Or.inr ⟨hglued, hnone⟩)
    · exact Or.inl (.name hallows)
  | called =>
    obtain ⟨hallows, hcall⟩ := wordForm_eq_called hform
    refine wordsAllowed_word hproper.2 (hstop fun _ => hcall) ?_
    exact fun _ => Or.inl (.function hallows (head?_fittedFrom_of_opensCall hcall))
  | quoted => exact (reads_enclosed hproper.2).wordsAllowed (List.forall_mem_nil _) hout
  | qualified =>
    obtain ⟨code, hread, hcode⟩ := reads_qualified s qualifier hproper.2
    refine hread.wordsAllowed ?_ hout
    intro b hb
    rcases hcode b hb with rfl | rfl <;> decide

theorem wordsAllowed_fitted {l : Lexeme} {before : Bytes} {depth : Nat} {rest : List Lexeme}
    {qualifier : Option String} (hmode : mode ≠ .nested)
    (hproper : l.Proper s.usesBackslashEscapes mode) (hleaves : l.Leaves (sources rest))
    (hrest : Accepted s.usesBackslashEscapes mode depth rest)
    (hout : (after s.reader .code before).isOutside = true)
    (hmeets : Meets s before (l.source ++ sources rest))
    (hafter : afterAs = true → FollowsAs before ∨ FollowsGluedAs s before) :
    WordsAllowed s before (l.fitted s (Name.lead s.nameQuote qualifier) afterAs afterDot rest)
      (fittedFrom s (Name.lead s.nameQuote qualifier) (l.expectsAlias afterAs)
        (l == .mark Byte.dot) (l.closesUp s afterAs afterDot rest) rest) := by
  cases l with
  | space run =>
    have htame : ∀ b ∈ run, isTame b = true := fun b hb =>
      isTame_of_isPlain (isPlain_of_isSpace (hproper.2 b hb))
    exact (reads_tame htame).wordsAllowed
      (fun b hb => not_isWordStart_of_isSpace (hproper.2 b hb)) hout
  | word name => exact wordsAllowed_text hproper hleaves hrest hout hafter
  | national letter =>
    have hletter : isPrefixLetter letter = true := by rcases hproper with rfl | rfl <;> decide
    have hhead : (fittedFrom s (Name.lead s.nameQuote qualifier) false false false rest).head?
        = some Byte.apostrophe :=
      (head?_fittedFrom_eq_iff hrest (kept_lead s qualifier (by decide) (by decide)
        (by decide))).mpr hleaves
    refine wordsAllowed_word (List.forall_mem_singleton.mpr (isWord_of_isPrefixLetter hletter)) ?_
      fun _ => Or.inl (.literal rfl hletter hhead)
    intro b hb
    obtain rfl : Byte.apostrophe = b := Option.some.inj (hhead.symm.trans hb)
    decide
  | string parts =>
    exact (reads_literal (.flatMap fun part hpart =>
      inside_part (hproper part hpart))).wordsAllowed (List.forall_mem_nil _) hout
  | quotedName quote name =>
    exact (reads_enclose s.reader name).wordsAllowed (List.forall_mem_nil _) hout
  | hexString letter digits =>
    have hdigits : ∀ b ∈ digits, Byte.isWord b = true := fun b hb =>
      isWord_of_isHexDigit (hproper.2.1 b hb)
    have hletter : isPrefixLetter letter = true := by rcases hproper.1 with rfl | rfl <;> decide
    simp only [fitted]
    split
    · have hword : ∀ b ∈ utf8 "0x" ++ digits, Byte.isWord b = true :=
        List.forall_mem_append.mpr ⟨by decide +kernel, hdigits⟩
      exact wordsAllowed_run_of_head hword ⟨Byte.zero, rfl, by decide⟩
    · exact wordsAllowed_prefixed hletter hdigits hout
  | bitString letter digits =>
    have hletter : isPrefixLetter letter = true := by rcases hproper.1 with rfl | rfl <;> decide
    exact wordsAllowed_prefixed hletter (fun b hb => isWord_of_isBit (hproper.2 b hb)) hout
  | number text =>
    obtain ⟨b, hb, hdigit⟩ := IsNumber.head? hproper
    have hbefore := hmeets.scansTo hb (isWord_of_isDigit hdigit)
    exact wordsAllowed_number hproper hbefore hout
      (not_isWord_head?_fittedFrom hrest hleaves (absurd · Bool.false_ne_true))
  | placeholder text => exact absurd hproper.1 hmode
  | mark b =>
    obtain ⟨code, hread, hshows⟩ :=
      reads_fitted (s := s) (l := .mark b) qualifier afterAs afterDot rest hmode hproper
    obtain rfl : code = [b] := hshows
    exact hread.wordsAllowed (List.forall_mem_singleton.mpr hproper.2.1) hout

/-! ### Whole texts -/

/-- Where an alias is expected, the keyword comes before. -/
theorem followsAs_fitted {l : Lexeme} {before following : Bytes}
    (hproper : l.Proper s.usesBackslashEscapes mode)
    (hmeets : Meets s before (l.source ++ following))
    (hafter : afterAs = true → FollowsAs before ∨ FollowsGluedAs s before) (rest : List Lexeme)
    (h : l.expectsAlias afterAs = true) :
    FollowsAs (before ++ l.fitted s lead afterAs afterDot rest) ∨
      FollowsGluedAs s (before ++ l.fitted s lead afterAs afterDot rest) := by
  cases l with
  | space run =>
    refine (hafter h).imp (fun has => ?_) (·.append_space hproper.2)
    change isAs (lastRun (before ++ run)) = true
    rwa [lastRun_append_space hproper.2]
  | word name =>
    have has : isAs name = true := h
    obtain ⟨⟨b, hb, hstart⟩, -⟩ := hproper
    have hbare : (Lexeme.word name).fitted s lead afterAs afterDot rest = name := by
      simp only [fitted, wordForm, has, if_true]
      rfl
    rw [hbare]
    exact (hmeets.scansTo hb (by simp [Byte.isWord, hstart])).followsAs has
  | _ => cases h

theorem Accepted.wordsAllowed {depth : Nat} {lexemes : List Lexeme} (before : Bytes)
    (qualifier : Option String) (afterAs afterDot closing : Bool)
    (h : Accepted s.usesBackslashEscapes mode depth lexemes) (hstops : AllStop lexemes)
    (hmode : mode ≠ .nested) (hout : (after s.reader .code before).isOutside = true)
    (hclosing : closing = true → opensCall lexemes = true)
    (hmeets : Meets s before (sources lexemes))
    (hafter : afterAs = true → FollowsAs before ∨ FollowsGluedAs s before) :
    WordsAllowed s before
      (fittedFrom s (Name.lead s.nameQuote qualifier) afterAs afterDot closing lexemes) [] := by
  induction h generalizing afterAs afterDot closing before with
  | nil => exact wordsAllowed_nil _ _
  | @cons l rest depth next hproper hleaves hdepth hrest ih =>
    obtain ⟨text, htext, hown⟩ := fittedFrom_cons s (Name.lead s.nameQuote qualifier) afterAs
      afterDot closing l rest
    rw [htext]
    rcases hown with rfl | ⟨rfl, hspace, rfl⟩
    · obtain ⟨code, hread, -⟩ := reads_fitted qualifier afterAs afterDot rest hmode hproper
      refine WordsAllowed.append ?_ (ih _ _ _ _ hstops.2 ?_ opensCall_of_closesUp
        (meets_fitted hmode hproper hleaves hstops.1 hmeets)
        (followsAs_fitted hproper hmeets hafter rest))
      · rw [List.append_nil]
        exact wordsAllowed_fitted hmode hproper hleaves hrest hout hmeets hafter
      · rw [after_append]
        exact hread.ends _ hout
    · cases l with
      | space run =>
        exact ih _ _ _ _ hstops.2 hout opensCall_of_closesUp (meets_of_opensCall (hclosing rfl))
          hafter
      | _ => cases hspace

end Lexeme

/-! ### Safe texts -/

theorem allowed_of_fitText {text out front run back : Bytes} {qualifier : Option String}
    {mode : SafeMode} (hmode : mode ≠ .nested) (h : fitText qualifier s mode text = .ok out)
    (hsplit : out = front ++ (run ++ back)) (hword : BareWord s.reader front run back) :
    Allowed s front run back := by
  obtain ⟨lexemes, hread, rfl⟩ := fitText_eq_ok_iff.mp h
  obtain ⟨haccepted, hstops, -⟩ := Lexeme.readAll_eq_ok_iff.mp hread
  have hall := haccepted.wordsAllowed (s := s) [] qualifier false false false hstops hmode rfl
    nofun (Lexeme.meets_of_scansTo .nil _) nofun
  refine hall front (run ++ back) run back hsplit ?_ (List.append_nil _) hword
  obtain ⟨b, hb, -⟩ := hword.starts
  intro hnil
  rw [(List.append_eq_nil_iff.mp hnil).1] at hb
  cases hb

/-- Every bare word of a safe text is permitted, but for the exponents that follow a point; nothing
is said of an alias, a word that is not called, whose keyword has run together with a literal. A bare
word that is called is on one of the two lists, if it is not the keyword before an alias. -/
theorem permitted_of_sanitize {text out : String} {qualifier : Option String} {mode : SafeMode}
    (hmode : mode = .expression ∨ mode = .chunk) (h : sanitize text qualifier s mode = .ok out)
    {front run back : Bytes} (hsplit : utf8 out = front ++ (run ++ back))
    (hword : BareWord s.reader front run back) :
    (¬ FollowsGluedAs s front ∨ OpensCall back →
      Permitted s front run back ∨ IsExponentAfterPoint s front run back) ∧
    (OpensCall back → Lexeme.isAs run = true ∨ s.idents.allows run = true ∨
      s.functions.allows run = true ∨ IsExponentAfterPoint s front run back) := by
  have hallowed : Allowed s front run back := by
    refine allowed_of_fitText ?_ (fitText_of_sanitize h) hsplit hword
    rcases hmode with rfl | rfl <;> nofun
  constructor
  · intro hcase
    rcases hallowed with hpermitted | hexponent | ⟨hglued, hnone⟩
    · exact Or.inl hpermitted
    · exact Or.inr hexponent
    · exact (hcase.elim (· hglued) hnone).elim
  · intro hcall
    rcases hallowed with hpermitted | hexponent | ⟨-, hnone⟩
    · cases hpermitted with
      | keyword has => exact Or.inl has
      | name hallows => exact Or.inr (Or.inl hallows)
      | function hallows => exact Or.inr (Or.inr (Or.inl hallows))
      | aliased _ hnone => exact absurd hcall hnone
      | literal _ _ hquote =>
        obtain ⟨rest, rfl⟩ := List.head?_eq_some_iff.mp hquote
        exact absurd (Option.some.inj hcall) (by decide)
    · exact Or.inr (Or.inr (Or.inr hexponent))
    · exact absurd hcall hnone

/-- An alias stands bare after its keyword, although it is on no list, and the function before it is
called. -/
theorem permitted_of_sanitize_alias :
    sanitize "COUNT (x) AS n" none (Settings.ofDialect .postgres) .chunk
        = .ok "COUNT(\"x\") AS n" ∧
      Permitted (Settings.ofDialect .postgres) (utf8 "COUNT(\"x\") AS ") (utf8 "n") [] ∧
      (Settings.ofDialect .postgres).functions.allows (utf8 "COUNT") = true := by
  have hsafe : sanitize "COUNT (x) AS n" none (Settings.ofDialect .postgres) .chunk
      = .ok "COUNT(\"x\") AS n" := by decide +kernel
  refine ⟨hsafe, ?_, ?_⟩
  · have hsplit : utf8 "COUNT(\"x\") AS n" = utf8 "COUNT(\"x\") AS " ++ (utf8 "n" ++ []) := by
      decide +kernel
    have hallowed := (permitted_of_sanitize (Or.inr rfl) hsafe hsplit (by decide +kernel)).1
      (Or.inl fun hglued => absurd hglued.1 (by decide))
    refine hallowed.resolve_right ?_
    rintro ⟨before, letter, digits, -, -, hrun, hletter, -⟩
    have hname : utf8 "n" = [0x6E] := by decide +kernel
    obtain rfl : 0x6E = letter := List.head_eq_of_cons_eq (hname.symm.trans hrun)
    exact absurd hletter (by decide)
  · have hsplit : utf8 "COUNT(\"x\") AS n" = [] ++ (utf8 "COUNT" ++ utf8 "(\"x\") AS n") := by
      decide +kernel
    rcases (permitted_of_sanitize (Or.inr rfl) hsafe hsplit (by decide +kernel)).2
      (by decide +kernel) with has | hallows | hallows | ⟨before, letter, digits, hfront, -⟩
    · exact absurd has (by decide +kernel)
    · exact absurd hallows (by decide +kernel)
    · exact hallows
    · exact absurd hfront.symm (by simp)

/-- The exponent of a number is a bare word on no list, where only a point stands between it and the
digits, also if these have run together with a hexadecimal literal; and so is an alias whose keyword
has. -/
theorem exponent_stands_bare :
    (sanitize "1.e5" none (Settings.ofDialect .postgres) .expression = .ok "1.e5" ∧
      utf8 "1.e5" = utf8 "1." ++ (utf8 "e5" ++ []) ∧
      BareWord (Settings.ofDialect .postgres).reader (utf8 "1.") (utf8 "e5") [] ∧
      ¬ Permitted (Settings.ofDialect .postgres) (utf8 "1.") (utf8 "e5") []) ∧
    (sanitize "x'0a'1.e5" none (Settings.ofDialect .mssql) .chunk = .ok "0x0a1.e5" ∧
      utf8 "0x0a1.e5" = utf8 "0x0a1." ++ (utf8 "e5" ++ []) ∧
      BareWord (Settings.ofDialect .mssql).reader (utf8 "0x0a1.") (utf8 "e5") [] ∧
      ¬ Permitted (Settings.ofDialect .mssql) (utf8 "0x0a1.") (utf8 "e5") []) ∧
    (sanitize "x'0a'AS b" none (Settings.ofDialect .mssql) .chunk = .ok "0x0aAS b" ∧
      utf8 "0x0aAS b" = utf8 "0x0aAS " ++ (utf8 "b" ++ []) ∧
      BareWord (Settings.ofDialect .mssql).reader (utf8 "0x0aAS ") (utf8 "b") [] ∧
      ¬ Permitted (Settings.ofDialect .mssql) (utf8 "0x0aAS ") (utf8 "b") []) := by
  refine ⟨⟨by decide +kernel, by decide +kernel, by decide +kernel, ?_⟩,
    ⟨by decide +kernel, by decide +kernel, by decide +kernel, ?_⟩,
    by decide +kernel, by decide +kernel, by decide +kernel, ?_⟩ <;>
  · intro hpermitted
    cases hpermitted with
    | keyword has => exact absurd has (by decide +kernel)
    | name hallows => exact absurd hallows (by decide +kernel)
    | function hallows => exact absurd hallows (by decide +kernel)
    | aliased has => exact absurd has (by decide +kernel)
    | literal hrun hletter hquote => cases hquote

end SqlTemplate
