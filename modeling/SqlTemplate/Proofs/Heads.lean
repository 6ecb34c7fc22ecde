import SqlTemplate.Proofs.Fitting
import SqlTemplate.Proofs.Region

/-!
# How a fitted text starts

The first byte of a text in the target dialect is the one it was read with, a quote around a name,
the first byte of a qualifier, or the zero of a hexadecimal literal (`Lexeme.FitsHead`). What the
reader asks of the text after a lexeme is decided by that byte.
-/

namespace SqlTemplate

/-! ### What a qualifier puts before a name -/

/-- A name that does not start with a bare star starts with a quote. -/
theorem Name.head?_writeDotted {quote : UInt8} {name : String}
    (hstar : (Name.segments (utf8 name)).head? ≠ some [Byte.star]) :
    (Name.writeDotted quote name).head? = some quote := by
  unfold Name.writeDotted
  cases hsegments : Name.segments (utf8 name) with
  | nil => exact absurd hsegments (List.splitOn_ne_nil _ _)
  | cons segment rest =>
    have hfirst : segment ≠ [Byte.star] := by
      rintro rfl
      exact hstar (by rw [hsegments, List.head?_cons])
    rw [List.map_cons, Name.writeSegment, if_neg hfirst]
    cases rest with
    | nil => simp [List.intercalate, Name.enclose]
    | cons next others =>
      rw [List.map_cons, List.intercalate_cons_cons]
      simp [Name.enclose]

/-- The first segment of a qualifier, where there is one, is no bare star. -/
def StartsNamed (qualifier : Option String) : Prop :=
  ∀ name, qualifier = some name → (Name.segments (utf8 name)).head? ≠ some [Byte.star]

theorem StartsNamed.head?_lead {quote b : UInt8} {qualifier : Option String}
    (hqualifier : StartsNamed qualifier)
    (h : (Name.lead quote qualifier).head? = some b) : b = quote := by
  unfold Name.lead at h
  split at h
  · cases h
  · rename_i name
    split at h
    · cases h
    · rw [List.head?_append, Name.head?_writeDotted (hqualifier name rfl), Option.some_or] at h
      exact (Option.some.inj h).symm

/-- What a qualifier puts before a name starts with a quote or with a bare star. -/
theorem Name.head?_lead {quote b : UInt8} {qualifier : Option String}
    (h : (Name.lead quote qualifier).head? = some b) : b = quote ∨ b = Byte.star := by
  by_cases hqualifier : StartsNamed qualifier
  · exact Or.inl (hqualifier.head?_lead h)
  · right
    unfold StartsNamed at hqualifier
    push Not at hqualifier
    obtain ⟨name, rfl, hstar⟩ := hqualifier
    unfold Name.lead at h
    dsimp only at h
    split at h
    · cases h
    · unfold Name.writeDotted at h
      obtain ⟨rest, hrest⟩ := List.head?_eq_some_iff.mp hstar
      rw [hrest, List.map_cons, Name.writeSegment, if_pos rfl] at h
      cases rest with
      | nil => exact (Option.some.inj h).symm
      | cons next others =>
        rw [List.map_cons, List.intercalate_cons_cons] at h
        exact (Option.some.inj h).symm

/-! ### First bytes -/

/-- A parenthesis opens after optional white space. -/
def OpensCall (back : Bytes) : Prop := (back.dropWhile Byte.isSpace).head? = some Byte.openParen

instance (back : Bytes) : Decidable (OpensCall back) := inferInstanceAs (Decidable (_ = _))

namespace Lexeme

variable {s : Settings} {mode : SafeMode} {afterAs afterDot closing : Bool} {lead : Bytes}

/-- What the first byte `b` of a lexeme in the target dialect is, where `c` is the first byte that
it was read from. -/
def FitsHead (s : Settings) (lead : Bytes) (c b : UInt8) : Lexeme → Prop
  | .word _ => b = c ∨ b = s.nameQuote ∨ lead.head? = some b
  | .quotedName _ _ => b = s.nameQuote
  | .hexString _ _ => b = c ∨ b = Byte.zero ∧ s.family = .mssql
  | _ => b = c

theorem head?_fitted {escapes : Bool} {l : Lexeme} (s : Settings) (lead : Bytes)
    (afterAs afterDot : Bool) (following : List Lexeme) (hproper : l.Proper escapes mode) :
    ∃ b c, (l.fitted s lead afterAs afterDot following).head? = some b ∧
      l.source.head? = some c ∧ l.StartsAs c ∧ l.FitsHead s lead c b := by
  obtain ⟨c, hc, hstart⟩ := hproper.head?
  cases l with
  | word name =>
    simp only [fitted]
    cases wordForm s afterAs afterDot name following with
    | bare | called => exact ⟨c, c, hc, hc, hstart, Or.inl rfl⟩
    | quoted => exact ⟨s.nameQuote, c, rfl, hc, hstart, Or.inr (Or.inl rfl)⟩
    | qualified =>
      simp only [WordForm.text, List.append_assoc, List.head?_append]
      cases hlead : lead.head? with
      | none => exact ⟨s.nameQuote, c, rfl, hc, hstart, Or.inr (Or.inl rfl)⟩
      | some b => exact ⟨b, c, rfl, hc, hstart, Or.inr (Or.inr hlead)⟩
  | quotedName quote name => exact ⟨s.nameQuote, c, rfl, hc, hstart, rfl⟩
  | hexString letter digits =>
    simp only [fitted]
    split
    · rename_i hfamily
      exact ⟨Byte.zero, c, rfl, hc, hstart, Or.inr ⟨rfl, hfamily⟩⟩
    · exact ⟨c, c, hc, hc, hstart, Or.inl rfl⟩
  | _ => exact ⟨c, c, hc, hc, hstart, rfl⟩

/-- The first bytes of a text, before and after it was fitted, and the lexeme they belong to. -/
theorem head?_fittedFrom {escapes : Bool} {depth : Nat} {lexemes : List Lexeme}
    (s : Settings) (lead : Bytes) (afterAs afterDot : Bool)
    (h : Accepted escapes mode depth lexemes) :
    lexemes = [] ∨ ∃ l b c, lexemes.head? = some l ∧
      (fittedFrom s lead afterAs afterDot false lexemes).head? = some b ∧
      (sources lexemes).head? = some c ∧ l.StartsAs c ∧ l.FitsHead s lead c b := by
  cases h with
  | nil => exact Or.inl rfl
  | @cons l rest _ _ hproper =>
    obtain ⟨b, c, hb, hc, hfits⟩ := head?_fitted s lead afterAs afterDot rest hproper
    refine Or.inr ⟨l, b, c, rfl, ?_, ?_, hfits⟩
    · rw [fittedFrom, Bool.false_and, if_neg Bool.false_ne_true, List.head?_append, hb,
        Option.some_or]
    · rw [sources, List.flatMap_cons, List.head?_append, hc, Option.some_or]

/-- What a lexeme puts into the fitted text: nothing if it is white space that is closed up. -/
theorem fittedFrom_cons (s : Settings) (lead : Bytes) (afterAs afterDot closing : Bool)
    (l : Lexeme) (rest : List Lexeme) :
    ∃ text, fittedFrom s lead afterAs afterDot closing (l :: rest)
        = text ++ fittedFrom s lead (l.expectsAlias afterAs) (l == .mark Byte.dot)
            (l.closesUp s afterAs afterDot rest) rest ∧
      (text = l.fitted s lead afterAs afterDot rest ∨
        closing = true ∧ l.isSpace = true ∧ text = []) := by
  refine ⟨_, rfl, ?_⟩
  split
  · rename_i h
    rw [Bool.and_eq_true] at h
    exact Or.inr ⟨h.1, h.2, rfl⟩
  · exact Or.inl rfl

theorem opensCall_of_closesUp {l : Lexeme} {following : List Lexeme}
    (h : l.closesUp s afterAs afterDot following = true) :
    opensCall following = true := by
  cases l with
  | word name => exact (wordForm_eq_called (eq_of_beq h)).2
  | _ => cases h

theorem head?_sources_of_opensCall {run : Bytes} {rest : List Lexeme}
    (h : opensCall (.space run :: rest) = true) : (sources rest).head? = some Byte.openParen := by
  cases rest with
  | nil => cases h
  | cons l rest =>
    cases l with
    | mark b => exact congrArg some (eq_of_beq h)
    | _ => cases h

/-- Where the white space before a call is removed, the parenthesis comes first. -/
theorem head?_fittedFrom_of_opensCall {lexemes : List Lexeme} (h : opensCall lexemes = true) :
    (fittedFrom s lead afterAs afterDot true lexemes).head? = some Byte.openParen := by
  match lexemes, h with
  | .space _ :: .mark b :: _, h =>
    obtain rfl : b = Byte.openParen := eq_of_beq h
    rfl
  | .mark b :: _, h =>
    obtain rfl : b = Byte.openParen := eq_of_beq h
    rfl

/-! ### Bytes that stay -/

theorem nameQuote_cases (s : Settings) :
    s.nameQuote = Byte.doubleQuote ∨ s.nameQuote = Byte.backtick := s.reader.quote_eq

theorem not_isWord_nameQuote (s : Settings) : Byte.isWord s.nameQuote = false := by
  rcases nameQuote_cases s with hq | hq <;>
  · rw [hq]
    decide

/-- A byte that no lexeme starts with in the target dialect unless it was read with it. -/
structure Kept (lead : Bytes) (p : UInt8) : Prop where
  noWord : Byte.isWord p = false
  noQuote : p ≠ Byte.doubleQuote ∧ p ≠ Byte.backtick
  noLead : lead.head? ≠ some p

/-- A qualifier that starts with a name puts no other byte first than a quote. -/
theorem kept_of_startsNamed {qualifier : Option String} {p : UInt8} (s : Settings)
    (h : StartsNamed qualifier) (hword : Byte.isWord p = false)
    (hquote : p ≠ Byte.doubleQuote ∧ p ≠ Byte.backtick) :
    Kept (Name.lead s.nameQuote qualifier) p where
  noWord := hword
  noQuote := hquote
  noLead hhead := by
    obtain rfl := h.head?_lead hhead
    exact (nameQuote_cases s).elim hquote.1 hquote.2

theorem kept_lead (s : Settings) (qualifier : Option String) {p : UInt8}
    (hword : Byte.isWord p = false)
    (hquote : p ≠ Byte.doubleQuote ∧ p ≠ Byte.backtick) (hstar : p ≠ Byte.star) :
    Kept (Name.lead s.nameQuote qualifier) p where
  noWord := hword
  noQuote := hquote
  noLead hhead := by
    rcases Name.head?_lead hhead with rfl | rfl
    · exact (nameQuote_cases s).elim hquote.1 hquote.2
    · exact hstar rfl

theorem FitsHead.eq_iff {l : Lexeme} {c b p : UInt8} (h : l.FitsHead s lead c b)
    (hstart : l.StartsAs c) (hp : Kept lead p) : b = p ↔ c = p := by
  have hquote : s.nameQuote ≠ p := by
    rintro rfl
    exact (nameQuote_cases s).elim hp.noQuote.1 hp.noQuote.2
  have hword (hc : Byte.isWord c = true) : c ≠ p := by
    rintro rfl
    rw [hp.noWord] at hc
    cases hc
  cases l with
  | word name =>
    rcases h with rfl | rfl | hlead
    · exact Iff.rfl
    · exact iff_of_false hquote (hword (by simp [Byte.isWord, show _ = true from hstart]))
    · refine iff_of_false ?_ (hword (by simp [Byte.isWord, show _ = true from hstart]))
      rintro rfl
      exact hp.noLead hlead
  | quotedName quote name =>
    obtain rfl : b = s.nameQuote := h
    refine iff_of_false hquote ?_
    rintro rfl
    exact hstart.2.elim hp.noQuote.1 hp.noQuote.2
  | hexString letter digits =>
    rcases h with rfl | ⟨rfl, -⟩
    · exact Iff.rfl
    · refine iff_of_false ?_ (hword (by rcases hstart with rfl | rfl <;> decide))
      rintro rfl
      exact absurd hp.noWord (by decide)
  | _ =>
    obtain rfl : b = c := h
    exact Iff.rfl

theorem head?_fittedFrom_eq_iff {escapes : Bool} {depth : Nat} {lexemes : List Lexeme} {p : UInt8}
    (h : Accepted escapes mode depth lexemes) (hp : Kept lead p) :
    (fittedFrom s lead afterAs afterDot false lexemes).head? = some p ↔
      (sources lexemes).head? = some p := by
  rcases head?_fittedFrom s lead afterAs afterDot h with rfl | ⟨l, b, c, -, hb, hc, hstart, hfits⟩
  · exact Iff.rfl
  · rw [hb, hc, Option.some.injEq, Option.some.injEq, hfits.eq_iff hstart hp]

/-- A quote around names that opens a fitted text is the one of the target dialect. -/
theorem eq_nameQuote_of_head?_fittedFrom {escapes : Bool} {depth : Nat} {lexemes : List Lexeme}
    {qualifier : Option String} {b : UInt8} (h : Accepted escapes mode depth lexemes)
    (hb : (fittedFrom s (Name.lead s.nameQuote qualifier) afterAs afterDot false lexemes).head?
      = some b)
    (hquote : b = Byte.doubleQuote ∨ b = Byte.backtick) : b = s.nameQuote := by
  rcases head?_fittedFrom s (Name.lead s.nameQuote qualifier) afterAs afterDot h
    with rfl | ⟨l, d, c, -, hd, -, hstart, hfits⟩
  · cases hb
  obtain rfl : d = b := Option.some.inj (hd.symm.trans hb)
  by_cases hsame : d = c
  · obtain ⟨name, rfl⟩ := StartsAs.eq_quotedName (hsame ▸ hstart) hquote
    exact hfits
  cases l with
  | word name =>
    rcases hfits with hkept | hname | hlead
    · exact absurd hkept hsame
    · exact hname
    · rcases Name.head?_lead hlead with hname | rfl
      · exact hname
      · exact absurd hquote (by decide)
  | quotedName quote name => exact hfits
  | hexString letter digits =>
    rcases hfits with hkept | ⟨rfl, -⟩
    · exact absurd hkept hsame
    · exact absurd hquote (by decide)
  | _ => exact absurd hfits hsame

theorem kept_of_isSpace (s : Settings) (qualifier : Option String) {b : UInt8}
    (h : Byte.isSpace b = true) : Kept (Name.lead s.nameQuote qualifier) b := by
  apply kept_lead
  · grind [Byte.isSpace, Byte.isWord, Byte.isWordStart, Byte.isLetter, Byte.isDigit]
  · constructor <;>
    · rintro rfl
      exact absurd h (by decide)
  · rintro rfl
    exact absurd h (by decide)

/-- No word byte follows in the target dialect if none did before. -/
theorem not_isWord_head?_fittedFrom {escapes : Bool} {depth : Nat} {rest : List Lexeme}
    (hrest : Accepted escapes mode depth rest)
    (hstop : ∀ b, (sources rest).head? = some b → Byte.isWord b = false)
    (hclosing : closing = true → opensCall rest = true) (b : UInt8)
    (hb : (fittedFrom s lead afterAs afterDot closing rest).head? = some b) :
    Byte.isWord b = false := by
  cases closing with
  | true =>
    rw [head?_fittedFrom_of_opensCall (hclosing rfl)] at hb
    cases hb
    decide
  | false =>
    rcases head?_fittedFrom s lead afterAs afterDot hrest with rfl | ⟨l, d, c, -, hd, hc, hstart, hfits⟩
    · cases hb
    obtain rfl : d = b := Option.some.inj (hd.symm.trans hb)
    have hnone := hstop c hc
    cases l with
    | word name =>
      rw [Byte.isWord, show Byte.isWordStart c = true from hstart] at hnone
      cases hnone
    | quotedName quote name =>
      rw [show d = s.nameQuote from hfits]
      exact not_isWord_nameQuote s
    | hexString letter digits =>
      rcases hstart with rfl | rfl <;> exact absurd hnone (by decide)
    | _ => rwa [show d = c from hfits]

/-! ### Calls and points -/

theorem opensCall_append {run text : Bytes} (hrun : ∀ b ∈ run, Byte.isSpace b = true) :
    OpensCall (run ++ text) ↔ OpensCall text := by
  rw [OpensCall, OpensCall, List.dropWhile_append_of_pos hrun]

theorem opensCall_iff_head? {text : Bytes}
    (h : ∀ b, text.head? = some b → Byte.isSpace b = false) :
    OpensCall text ↔ text.head? = some Byte.openParen := by
  cases text with
  | nil => exact Iff.rfl
  | cons b rest => rw [OpensCall, List.dropWhile_cons_of_neg (by simp [h b rfl])]

/-- Lexemes without white space at the front start with no white space. -/
theorem Accepted.not_isSpace_head? {escapes : Bool} {depth : Nat} {l : Lexeme} {rest : List Lexeme}
    (h : Accepted escapes mode depth (l :: rest)) (hspace : l.isSpace = false) (b : UInt8)
    (hb : (sources (l :: rest)).head? = some b) : Byte.isSpace b = false := by
  cases h with
  | cons hproper _ _ _ =>
    obtain ⟨c, hc, hstart⟩ := hproper.head?
    rw [sources, List.flatMap_cons, List.head?_append, hc, Option.some_or] at hb
    obtain rfl : c = b := Option.some.inj hb
    by_contra hspaceByte
    obtain ⟨run, rfl⟩ := hstart.isSpace (by simpa using hspaceByte)
    cases hspace

theorem Accepted.head?_eq_mark_iff {escapes : Bool} {depth : Nat} {lexemes : List Lexeme}
    {p : UInt8} (h : Accepted escapes mode depth lexemes)
    (hp : p = Byte.openParen ∨ p = Byte.dot ∨ p = Byte.ampersand) :
    (sources lexemes).head? = some p ↔ lexemes.head? = some (.mark p) := by
  cases h with
  | nil => exact iff_of_false nofun nofun
  | @cons l rest _ _ hproper _ _ _ =>
    obtain ⟨c, hc, hstart⟩ := hproper.head?
    rw [sources, List.flatMap_cons, List.head?_append, hc, Option.some_or, List.head?_cons,
      Option.some.injEq, Option.some.injEq]
    constructor
    · rintro rfl
      exact hstart.eq_mark hp
    · rintro rfl
      exact hstart.1

theorem Accepted.startsWithDot_iff {escapes : Bool} {depth : Nat} {lexemes : List Lexeme}
    (h : Accepted escapes mode depth lexemes) :
    startsWithDot lexemes = true ↔ (sources lexemes).head? = some Byte.dot := by
  rw [h.head?_eq_mark_iff (Or.inr (Or.inl rfl))]
  cases lexemes with
  | nil => exact iff_of_false nofun nofun
  | cons l rest =>
    cases l with
    | mark b => simp [startsWithDot]
    | _ => exact iff_of_false nofun nofun

theorem opensCall_iff_of_not_isSpace {l : Lexeme} {rest : List Lexeme} (h : l.isSpace = false) :
    opensCall (l :: rest) = true ↔ (l :: rest).head? = some (.mark Byte.openParen) := by
  cases l with
  | space run => cases h
  | mark b => simp [opensCall]
  | _ => exact iff_of_false nofun nofun

theorem opensCall_space_iff {run : Bytes} {rest : List Lexeme} :
    opensCall (.space run :: rest) = true ↔ rest.head? = some (.mark Byte.openParen) := by
  cases rest with
  | nil => exact iff_of_false nofun nofun
  | cons l rest =>
    cases l with
    | mark b => simp [opensCall]
    | _ => exact iff_of_false nofun nofun

/-- Lexemes open a call iff their text does. -/
theorem Accepted.opensCall_iff {escapes : Bool} {depth : Nat} {lexemes : List Lexeme}
    (h : Accepted escapes mode depth lexemes) :
    opensCall lexemes = true ↔ OpensCall (sources lexemes) := by
  cases lexemes with
  | nil => exact iff_of_false nofun nofun
  | cons l rest =>
    cases hspace : l.isSpace with
    | false =>
      rw [opensCall_iff_of_not_isSpace hspace, opensCall_iff_head? (h.not_isSpace_head? hspace),
        h.head?_eq_mark_iff (Or.inl rfl)]
    | true =>
      cases l with
      | space run =>
        cases h with
        | cons hproper hleaves _ hrest =>
          change _ ↔ OpensCall (run ++ sources rest)
          rw [opensCall_append hproper.2, opensCall_iff_head? hleaves,
            hrest.head?_eq_mark_iff (Or.inl rfl), opensCall_space_iff]
      | _ => cases hspace

theorem not_isSpace_head?_fittedFrom {escapes : Bool} {depth : Nat} {lexemes : List Lexeme}
    (s : Settings) (qualifier : Option String) (afterAs afterDot : Bool)
    (h : Accepted escapes mode depth lexemes)
    (hspace : ∀ b, (sources lexemes).head? = some b → Byte.isSpace b = false) (b : UInt8)
    (hb : (fittedFrom s (Name.lead s.nameQuote qualifier) afterAs afterDot false lexemes).head?
      = some b) : Byte.isSpace b = false := by
  by_contra hspaceByte
  have hkept := kept_of_isSpace s qualifier (by simpa using hspaceByte)
  exact hspaceByte (hspace b ((head?_fittedFrom_eq_iff h hkept).mp hb))

/-- A parenthesis opens in the target dialect iff it did before. -/
theorem opensCall_fittedFrom_iff {escapes : Bool} {depth : Nat} {lexemes : List Lexeme}
    (s : Settings) (qualifier : Option String) (afterAs afterDot : Bool)
    (h : Accepted escapes mode depth lexemes) :
    OpensCall (fittedFrom s (Name.lead s.nameQuote qualifier) afterAs afterDot false lexemes) ↔
      OpensCall (sources lexemes) := by
  have hparen : Kept (Name.lead s.nameQuote qualifier) Byte.openParen :=
    kept_lead s qualifier (by decide) (by decide) (by decide)
  have hhead (afterAs afterDot : Bool) {depth : Nat} {others : List Lexeme}
      (hothers : Accepted escapes mode depth others)
      (hspace : ∀ b, (sources others).head? = some b → Byte.isSpace b = false) :
      OpensCall (fittedFrom s (Name.lead s.nameQuote qualifier) afterAs afterDot false others) ↔
        OpensCall (sources others) := by
    rw [opensCall_iff_head? (not_isSpace_head?_fittedFrom s qualifier _ _ hothers hspace),
      opensCall_iff_head? hspace, head?_fittedFrom_eq_iff hothers hparen]
  cases lexemes with
  | nil => exact Iff.rfl
  | cons l rest =>
    cases hspace : l.isSpace with
    | false => exact hhead afterAs afterDot h (h.not_isSpace_head? hspace)
    | true =>
      cases l with
      | space run =>
        cases h with
        | cons hproper hleaves _ hrest =>
          change OpensCall (run ++ fittedFrom s _ afterAs false false rest) ↔
            OpensCall (run ++ sources rest)
          rw [opensCall_append hproper.2, opensCall_append hproper.2]
          exact hhead afterAs false hrest hleaves
      | _ => cases hspace

end Lexeme

end SqlTemplate
