import SqlTemplate.Proofs.Reading
import SqlTemplate.Proofs.SafeText

/-!
# The lexemes of a fitted text

A lexeme in the target dialect is a lexeme again, perhaps of another kind: a word that is quoted is a
name between quotes, a hexadecimal literal may be a number (`Lexeme.refit`). It is fitted already,
and the text after it neither extends it nor refuses it, but for the seams at which two texts meet
that did not meet before.
-/

namespace SqlTemplate.Lexeme

variable {s : Settings} {mode : SafeMode} {afterAs afterDot closing : Bool} {lead : Bytes}
  {depth after : Nat} {text : Bytes} {rest : List Lexeme} {qualifier : Option String}

/-! ### Words -/

theorem wordForm_congr {name : Bytes} {lexemes rest : List Lexeme}
    (hcall : opensCall lexemes = opensCall rest)
    (hdot : startsWithDot lexemes = startsWithDot rest) :
    wordForm s afterAs afterDot name lexemes = wordForm s afterAs afterDot name rest := by
  unfold wordForm
  rw [hcall, hdot]

/-- The keyword before an alias stays bare. -/
theorem isAs_of_wordForm {name : Bytes} {rest : List Lexeme}
    (h : wordForm s afterAs afterDot name rest ≠ .bare) : isAs name = false := by
  by_contra has
  refine h ?_
  rw [wordForm, if_pos (by simpa using has)]

/-- What stands before the lexemes that follow the name of a function. -/
theorem flags_of_closesUp {l : Lexeme} (h : l.closesUp s afterAs afterDot rest = true) :
    opensCall rest = true ∧ l.expectsAlias afterAs = false ∧ (l == .mark Byte.dot) = false := by
  refine ⟨opensCall_of_closesUp h, ?_⟩
  cases l with
  | word name =>
    have hform : wordForm s afterAs afterDot name rest = .called := eq_of_beq h
    exact ⟨isAs_of_wordForm (hform.trans_ne (by decide)), rfl⟩
  | _ => cases h

theorem not_startsWithDot_of_opensCall {lexemes : List Lexeme} (h : opensCall lexemes = true) :
    startsWithDot lexemes = false := by
  match lexemes, h with
  | .space _ :: .mark _ :: _, _ => rfl
  | .mark b :: _, h =>
    obtain rfl : b = Byte.openParen := eq_of_beq h
    rfl

/-- What the second pass reads after a word decides on its form as what the first pass read. -/
theorem wordForm_reread {name : Bytes} {lexemes rest : List Lexeme} {qualifier : Option String}
    {first second : Nat} {nextAs nextDot : Bool}
    (hlexemes : Accepted s.usesBackslashEscapes mode second lexemes)
    (hrest : Accepted s.usesBackslashEscapes mode first rest)
    (hsources : sources lexemes
      = fittedFrom s (Name.lead s.nameQuote qualifier) nextAs nextDot closing rest)
    (hclosing : closing = true → opensCall rest = true) :
    wordForm s afterAs afterDot name lexemes = wordForm s afterAs afterDot name rest := by
  cases closing with
  | true =>
    have hcall := hclosing rfl
    have hhead : (sources lexemes).head? = some Byte.openParen := by
      rw [hsources, head?_fittedFrom_of_opensCall hcall]
    obtain ⟨others, rfl⟩ := List.head?_eq_some_iff.mp
      ((hlexemes.head?_eq_mark_iff (Or.inl rfl)).mp hhead)
    exact wordForm_congr hcall.symm (not_startsWithDot_of_opensCall hcall).symm
  | false =>
    have hpoint : Kept (Name.lead s.nameQuote qualifier) Byte.dot :=
      kept_lead s qualifier (by decide) (by decide) (by decide)
    apply wordForm_congr
    · rw [Bool.eq_iff_iff, hlexemes.opensCall_iff, hsources, opensCall_fittedFrom_iff _ _ _ _ hrest,
        hrest.opensCall_iff]
    · rw [Bool.eq_iff_iff, hlexemes.startsWithDot_iff, hsources, head?_fittedFrom_eq_iff hrest hpoint,
        hrest.startsWithDot_iff]

/-- No apostrophe and no byte of a word follows a word in the target dialect. -/
theorem leaves_word {name : Bytes} {rest : List Lexeme} (qualifier : Option String)
    (nextAs nextDot : Bool) (hleaves : (Lexeme.word name).Leaves (sources rest))
    (hrest : Accepted s.usesBackslashEscapes mode depth rest)
    (hclosing : closing = true → opensCall rest = true) :
    (Lexeme.word name).Leaves
      (fittedFrom s (Name.lead s.nameQuote qualifier) nextAs nextDot closing rest) := by
  intro b hb
  refine ⟨not_isWord_head?_fittedFrom hrest (fun c hc => (hleaves c hc).1) hclosing b hb, ?_⟩
  rintro rfl
  cases closing with
  | true =>
    rw [head?_fittedFrom_of_opensCall (hclosing rfl)] at hb
    exact absurd (Option.some.inj hb) (by decide)
  | false =>
    have hkept : Kept (Name.lead s.nameQuote qualifier) Byte.apostrophe :=
      kept_lead s qualifier (by decide) (by decide) (by decide)
    exact (hleaves _ ((head?_fittedFrom_eq_iff hrest hkept).mp hb)).2 rfl

/-! ### Strings -/

/-- An apostrophe after a backslash is a pair of apostrophes in the target dialect. -/
def refitted (part : StringPart) : StringPart :=
  if part = .escaped Byte.apostrophe then .pair else part

theorem source_refitted (part : StringPart) : (refitted part).source = part.fitted := by
  unfold refitted StringPart.fitted
  split <;> rfl

theorem fitted_refitted (part : StringPart) : (refitted part).fitted = part.fitted := by
  unfold refitted StringPart.fitted
  split <;> simp_all [StringPart.source]

theorem proper_refitted {escapes : Bool} {part : StringPart} (h : part.Proper escapes) :
    (refitted part).Proper escapes := by
  unfold refitted
  split
  · trivial
  · exact h

/-! ### Digits -/

/-- No digit follows in the target dialect if none did before, unless a hexadecimal literal does. -/
theorem not_isDigit_head?_fittedFrom {rest : List Lexeme} {qualifier : Option String}
    (hrest : Accepted s.usesBackslashEscapes mode depth rest)
    (hstop : ∀ b, (sources rest).head? = some b → Byte.isDigit b = false)
    (hhex : s.family = .mssql → ∀ letter digits, rest.head? ≠ some (.hexString letter digits))
    (b : UInt8)
    (hb : (fittedFrom s (Name.lead s.nameQuote qualifier) afterAs afterDot false rest).head?
      = some b) : Byte.isDigit b = false := by
  rcases head?_fittedFrom s (Name.lead s.nameQuote qualifier) afterAs afterDot hrest
    with rfl | ⟨l, d, c, hl, hd, hc, hstart, hfits⟩
  · cases hb
  obtain rfl : d = b := Option.some.inj (hd.symm.trans hb)
  have hnone := hstop c hc
  have hquote : Byte.isDigit s.nameQuote = false :=
    not_of_not_isWord isWord_of_isDigit (not_isWord_nameQuote s)
  cases l with
  | word name =>
    rcases hfits with rfl | rfl | hlead
    · exact hnone
    · exact hquote
    · rcases Name.head?_lead hlead with rfl | rfl
      · exact hquote
      · decide
  | quotedName quote name => rwa [show d = s.nameQuote from hfits]
  | hexString letter digits =>
    rcases hfits with rfl | ⟨-, hfamily⟩
    · exact hnone
    · exact absurd hl (hhex hfamily letter digits)
  | _ => rwa [show d = c from hfits]

/-! ### Lexemes -/

/-- A lexeme in the target dialect. -/
def refit (s : Settings) (afterAs afterDot : Bool) (following : List Lexeme) : Lexeme → Lexeme
  | .word name =>
    match wordForm s afterAs afterDot name following with
    | .bare | .called => .word name
    | .quoted | .qualified => .quotedName s.nameQuote name
  | .string parts => .string (parts.map refitted)
  | .quotedName _ name => .quotedName s.nameQuote name
  | .hexString letter digits =>
    if s.family = .mssql then .number (Byte.zero :: 0x78 :: digits) else .hexString letter digits
  | l => l

/-- What stands before a lexeme in the target dialect: the qualifier, if it is a name that takes
one. -/
def leadOf (s : Settings) (lead : Bytes) (afterAs afterDot : Bool) (following : List Lexeme) :
    Lexeme → Bytes
  | .word name => if wordForm s afterAs afterDot name following = .qualified then lead else []
  | _ => []

/-- Only a name between quotes has a qualifier before it. -/
theorem leadOf_cases (s : Settings) (lead : Bytes) (afterAs afterDot : Bool)
    (following : List Lexeme) (l : Lexeme) :
    l.leadOf s lead afterAs afterDot following = [] ∨
      l.leadOf s lead afterAs afterDot following = lead ∧
        ∃ name, l.refit s afterAs afterDot following = .quotedName s.nameQuote name := by
  cases l with
  | word name =>
    simp only [leadOf, refit]
    split
    · rename_i hform
      exact Or.inr ⟨rfl, name, by rw [hform]⟩
    · exact Or.inl rfl
  | _ => exact Or.inl rfl

/-- The text after a lexeme in the target dialect. -/
abbrev fittedAfter (s : Settings) (lead : Bytes) (afterAs afterDot : Bool) (following : List Lexeme)
    (l : Lexeme) : Bytes :=
  fittedFrom s lead (l.expectsAlias afterAs) (l == .mark Byte.dot)
    (l.closesUp s afterAs afterDot following) following

theorem utf8_hexPrefix : utf8 "0x" = [Byte.zero, 0x78] := by decide +kernel

theorem fitted_eq {escapes : Bool} {l : Lexeme} (lead : Bytes) (afterAs afterDot : Bool)
    (following : List Lexeme) (hproper : l.Proper escapes mode) :
    l.fitted s lead afterAs afterDot following
      = l.leadOf s lead afterAs afterDot following ++
          (l.refit s afterAs afterDot following).source := by
  cases l with
  | word name =>
    have hdoubled : doubled s.nameQuote name = name :=
      doubled_word (not_isWord_nameQuote s) hproper.2
    simp only [fitted, leadOf, refit]
    cases wordForm s afterAs afterDot name following with
    | bare | called => rfl
    | quoted | qualified => simp [WordForm.text, source, hdoubled]
  | string parts => simp [fitted, leadOf, refit, source, List.flatMap_map, source_refitted]
  | hexString letter digits =>
    simp only [fitted, leadOf, refit, utf8_hexPrefix]
    split <;> rfl
  | _ => rfl

theorem proper_refit {l : Lexeme} (afterAs afterDot : Bool) (following : List Lexeme)
    (hproper : l.Proper s.usesBackslashEscapes mode) :
    (l.refit s afterAs afterDot following).Proper s.usesBackslashEscapes mode := by
  cases l with
  | word name =>
    have hquoted : (Lexeme.quotedName s.nameQuote name).Proper s.usesBackslashEscapes mode := by
      refine ⟨nameQuote_cases s, ?_, fun hmem => absurd (hproper.2 _ hmem) (by decide)⟩
      rintro rfl
      obtain ⟨b, hb, -⟩ := hproper.1
      cases hb
    simp only [refit]
    cases wordForm s afterAs afterDot name following with
    | bare | called => exact hproper
    | quoted | qualified => exact hquoted
  | string parts =>
    exact List.forall_mem_map.mpr fun part hpart => proper_refitted (hproper part hpart)
  | quotedName quote name => exact ⟨nameQuote_cases s, hproper.2⟩
  | hexString letter digits =>
    simp only [refit]
    split
    · exact Or.inl ⟨0x78, digits, rfl, Or.inl rfl, hproper.2.1⟩
    · exact hproper
  | _ => exact hproper

/-- Names stand between the quotes of the target dialect. -/
theorem eq_nameQuote_of_refit {l : Lexeme} {following : List Lexeme} {quote : UInt8} {name : Bytes}
    (h : l.refit s afterAs afterDot following = .quotedName quote name) : quote = s.nameQuote := by
  cases l with
  | word own =>
    simp only [refit] at h
    cases hform : wordForm s afterAs afterDot own following with
    | bare | called =>
      rw [hform] at h
      cases h
    | quoted | qualified =>
      rw [hform] at h
      exact (Lexeme.quotedName.inj h).1.symm
  | quotedName own other => exact (Lexeme.quotedName.inj h).1.symm
  | hexString letter digits =>
    simp only [refit] at h
    split at h <;> cases h
  | _ => cases h

theorem expectsAlias_refit (l : Lexeme) (afterAs afterDot : Bool) (following : List Lexeme) :
    (l.refit s afterAs afterDot following).expectsAlias afterAs = l.expectsAlias afterAs := by
  cases l with
  | word name =>
    have has : wordForm s afterAs afterDot name following ≠ .bare → isAs name = false :=
      isAs_of_wordForm
    simp only [refit, expectsAlias]
    cases hform : wordForm s afterAs afterDot name following with
    | bare | called => rfl
    | quoted | qualified => exact (has (hform.trans_ne (by decide))).symm
  | hexString letter digits =>
    simp only [refit]
    split <;> rfl
  | _ => rfl

theorem refit_eq_mark (l : Lexeme) (afterAs afterDot : Bool) (following : List Lexeme) :
    (l.refit s afterAs afterDot following == .mark Byte.dot) = (l == .mark Byte.dot) := by
  cases l with
  | word name =>
    simp only [refit]
    cases wordForm s afterAs afterDot name following <;> rfl
  | hexString letter digits =>
    simp only [refit]
    split <;> rfl
  | _ => rfl

theorem depthAfter_refit (l : Lexeme) (afterAs afterDot : Bool) (following : List Lexeme)
    (mode : SafeMode) (depth : Nat) :
    depthAfter mode depth (l.refit s afterAs afterDot following) = depthAfter mode depth l := by
  cases l with
  | word name =>
    simp only [refit]
    cases wordForm s afterAs afterDot name following <;> rfl
  | hexString letter digits =>
    simp only [refit]
    split <;> rfl
  | _ => rfl

/-! ### What follows a lexeme -/

/-- The text after a lexeme does not extend it in the target dialect either, unless it is a name
before a name, a hexadecimal literal that became a number, or a slash before a qualifier. -/
theorem leaves_refit {l : Lexeme} (afterAs afterDot : Bool) (qualifier : Option String)
    (hleaves : l.Leaves (sources rest)) (hrest : Accepted s.usesBackslashEscapes mode after rest)
    (hname : ∀ name, l.refit s afterAs afterDot rest = .quotedName s.nameQuote name →
      (l.fittedAfter s (Name.lead s.nameQuote qualifier) afterAs afterDot rest).head?
        ≠ some s.nameQuote)
    (hhex : s.family = .mssql → ∀ letter digits, l = .hexString letter digits →
      ∀ b, (sources rest).head? = some b → Byte.isWord b = false)
    (hslash : l = .mark Byte.slash →
      (l.fittedAfter s (Name.lead s.nameQuote qualifier) afterAs afterDot rest).head?
        ≠ some Byte.star) :
    (l.refit s afterAs afterDot rest).Leaves
      (l.fittedAfter s (Name.lead s.nameQuote qualifier) afterAs afterDot rest) := by
  have hkept {p : UInt8} (hp : p = Byte.minus ∨ p = Byte.apostrophe) :
      Kept (Name.lead s.nameQuote qualifier) p := by
    rcases hp with rfl | rfl <;> exact kept_lead s qualifier (by decide) (by decide) (by decide)
  cases l with
  | word name =>
    have hcalls : (Lexeme.word name).closesUp s afterAs afterDot rest = true →
        opensCall rest = true := opensCall_of_closesUp
    have hword := leaves_word qualifier (isAs name) false hleaves hrest hcalls
    simp only [refit] at hname ⊢
    cases hform : wordForm s afterAs afterDot name rest with
    | bare | called => exact hword
    | quoted | qualified => exact hname name (by rw [hform])
  | space run => exact not_isSpace_head?_fittedFrom s qualifier _ _ hrest hleaves
  | national letter => exact (head?_fittedFrom_eq_iff hrest (hkept (Or.inr rfl))).mpr hleaves
  | string parts => exact mt (head?_fittedFrom_eq_iff hrest (hkept (Or.inr rfl))).mp hleaves
  | quotedName quote name => exact hname name rfl
  | hexString letter digits =>
    simp only [refit]
    split
    · rename_i hfamily
      exact not_isWord_head?_fittedFrom hrest (hhex hfamily letter digits rfl)
        (absurd · Bool.false_ne_true)
    · trivial
  | bitString letter digits | placeholder place => trivial
  | number number => exact not_isWord_head?_fittedFrom hrest hleaves (absurd · Bool.false_ne_true)
  | mark b =>
    refine ⟨fun hminus => ?_, fun hb => hslash (by rw [hb])⟩
    exact mt (head?_fittedFrom_eq_iff hrest (hkept (Or.inl rfl))).mp (hleaves.1 hminus)

/-- The reader goes no further in the target dialect either, unless a bare word opens an escape or a
number follows a placeholder. -/
theorem stops_refit {l : Lexeme} (afterAs afterDot : Bool) (qualifier : Option String)
    (hstops : l.Stops (sources rest)) (hrest : Accepted s.usesBackslashEscapes mode after rest)
    (hword : ∀ name, l.refit s afterAs afterDot rest = .word name →
      ¬ OpensEscape name (l.fittedAfter s (Name.lead s.nameQuote qualifier) afterAs afterDot rest))
    (hplace : ∀ place, l = .placeholder place → place ≠ [Byte.question] → s.family = .mssql →
      ∀ letter digits, rest.head? ≠ some (.hexString letter digits)) :
    (l.refit s afterAs afterDot rest).Stops
      (l.fittedAfter s (Name.lead s.nameQuote qualifier) afterAs afterDot rest) := by
  cases l with
  | word name =>
    simp only [refit] at hword ⊢
    cases hform : wordForm s afterAs afterDot name rest with
    | bare | called => exact hword name (by rw [hform])
    | quoted | qualified => trivial
  | hexString letter digits =>
    simp only [refit]
    split
    · intro hdigits
      exact absurd (hdigits 0x78 (by simp)) (by decide)
    · trivial
  | number number =>
    intro hdigits
    have hkept : Kept (Name.lead s.nameQuote qualifier) Byte.dot :=
      kept_lead s qualifier (by decide) (by decide) (by decide)
    exact mt (head?_fittedFrom_eq_iff hrest hkept).mp (hstops hdigits)
  | placeholder place =>
    intro hform
    exact not_isDigit_head?_fittedFrom hrest (hstops hform) (hplace place rfl hform)
  | _ => trivial

/-- A lexeme in the target dialect is fitted already, whatever it is read with. -/
theorem stays_refit {l : Lexeme} {others : List Lexeme} (afterAs afterDot : Bool) (lead : Bytes)
    (hrest : Accepted s.usesBackslashEscapes mode after rest)
    (hothers : Accepted s.usesBackslashEscapes mode depth others)
    (hsources : sources others
      = l.fittedAfter s (Name.lead s.nameQuote qualifier) afterAs afterDot rest) :
    (l.refit s afterAs afterDot rest).fitted s lead afterAs afterDot others
        = (l.refit s afterAs afterDot rest).source ∧
      ((l.refit s afterAs afterDot rest).closesUp s afterAs afterDot others = true →
        (sources others).head? = some Byte.openParen) := by
  cases l with
  | word name =>
    have hcalls : (Lexeme.word name).closesUp s afterAs afterDot rest = true →
        opensCall rest = true := opensCall_of_closesUp
    have hsame : wordForm s afterAs afterDot name others = wordForm s afterAs afterDot name rest :=
      wordForm_reread hothers hrest hsources hcalls
    simp only [refit]
    cases hform : wordForm s afterAs afterDot name rest with
    | bare => simp [fitted, closesUp, hsame, hform, WordForm.text, source]
    | called =>
      have hcloses : (Lexeme.word name).closesUp s afterAs afterDot rest = true := by
        simp [closesUp, hform]
      have hhead : (sources others).head? = some Byte.openParen := by
        rw [hsources, fittedAfter, hcloses]
        exact head?_fittedFrom_of_opensCall (hcalls hcloses)
      exact ⟨by simp [fitted, hsame, hform, WordForm.text, source], fun _ => hhead⟩
    | quoted | qualified => exact ⟨rfl, (absurd · Bool.false_ne_true)⟩
  | string parts =>
    refine ⟨?_, (absurd · Bool.false_ne_true)⟩
    simp only [refit, fitted, source, List.flatMap_map, source_refitted, fitted_refitted]
  | hexString letter digits =>
    simp only [refit]
    split
    · exact ⟨rfl, (absurd · Bool.false_ne_true)⟩
    · rename_i hfamily
      exact ⟨if_neg hfamily, (absurd · Bool.false_ne_true)⟩
  | _ => exact ⟨rfl, (absurd · Bool.false_ne_true)⟩

end SqlTemplate.Lexeme
