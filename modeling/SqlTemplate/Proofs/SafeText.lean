import SqlTemplate.Proofs.Confinement
import SqlTemplate.Proofs.Heads
import SqlTemplate.Proofs.Reading

/-!
# A safe text stays what it is

The library checks a text before it is fitted to the target dialect, and the server reads it after.
What an accepted text becomes is nevertheless confined: `Lexeme.reads_fitted` says so of one lexeme,
and the seams between lexemes are the rest of the work, since a comment and the prefix of a literal
are made by two lexemes side by side. The main statement is `confined_of_sanitize`.
-/

namespace SqlTemplate

/-! ### Lexemes in the target dialect -/

namespace Lexeme

open Region

variable {s : Settings} {mode : SafeMode} {afterAs afterDot : Bool} {following : List Lexeme}
  {lead : Bytes}

theorem IsNumber.isWord_or {text : Bytes} (h : IsNumber text) :
    (∀ b ∈ text, Byte.isWord b = true) ∨ ∃ whole fraction exponent,
      text = whole ++ (fraction ++ exponent) ∧ whole ≠ [] ∧
        (∀ b ∈ whole, Byte.isDigit b = true) ∧ IsFraction fraction ∧ IsExponent exponent := by
  rcases h with ⟨letter, digits, rfl, hletter, hdigits⟩ | h
  · refine Or.inl (List.forall_mem_cons.mpr ⟨by decide, List.forall_mem_cons.mpr ⟨?_, ?_⟩⟩)
    · rcases hletter with rfl | rfl <;> decide
    · exact fun b hb => isWord_of_isHexDigit (hdigits b hb)
  · exact Or.inr h

theorem IsNumber.isTame {text : Bytes} (h : IsNumber text) : ∀ b ∈ text, isTame b = true := by
  rcases h.isWord_or with hword | ⟨whole, fraction, exponent, rfl, -, hwhole, hfraction, hexponent⟩
  · intro b hb
    exact isTame_of_isWord (hword b hb)
  · simp only [List.forall_mem_append]
    refine ⟨fun b hb => isTame_of_isDigit (hwhole b hb), ?_, ?_⟩
    · rcases hfraction with rfl | ⟨digits, rfl, hdigits⟩
      · exact List.forall_mem_nil _
      · exact List.forall_mem_cons.mpr ⟨by decide, fun b hb => isTame_of_isDigit (hdigits b hb)⟩
    · rcases hexponent with rfl | ⟨letter, sign, digits, rfl, hletter, hsign, -, hdigits⟩
      · exact List.forall_mem_nil _
      · simp only [List.forall_mem_cons, List.forall_mem_append]
        refine ⟨?_, ?_, fun b hb => isTame_of_isDigit (hdigits b hb)⟩
        · rcases hletter with rfl | rfl <;> decide
        · rcases hsign with rfl | rfl | rfl
          · exact List.forall_mem_nil _
          · exact List.forall_mem_singleton.mpr (by decide)
          · exact List.forall_mem_singleton.mpr (by decide)

theorem inside_part {part : StringPart} (h : part.Proper s.usesBackslashEscapes) :
    Inside s.reader .literal part.fitted := by
  cases part with
  | plain b => exact inside_literal_byte h.2.1 h.2.2
  | pair => exact inside_literal_apostrophes
  | escaped b =>
    unfold StringPart.fitted
    split
    · exact inside_literal_apostrophes
    · exact inside_literal_escaped h.1 b

/-- The name of a word is enclosed as it is: it has no quotes. -/
theorem doubled_word {quote : UInt8} {name : Bytes} (hquote : Byte.isWord quote = false)
    (h : ∀ b ∈ name, Byte.isWord b = true) : doubled quote name = name := by
  induction name with
  | nil => rfl
  | cons b name ih =>
    obtain ⟨hb, hname⟩ := List.forall_mem_cons.mp h
    have hne : b ≠ quote := by
      rintro rfl
      rw [hb] at hquote
      cases hquote
    rw [doubled, if_neg hne, ih hname]

theorem reads_digits {digits : Bytes} (h : ∀ b ∈ digits, Byte.isWord b = true) :
    Reads s.reader (Byte.apostrophe :: digits ++ [Byte.apostrophe]) [] := by
  refine reads_literal (inside_literal ?_)
  intro b hb
  have hword := h b hb
  constructor <;>
  · rintro rfl
    revert hword
    decide

theorem reads_enclosed {name : Bytes} (h : ∀ b ∈ name, Byte.isWord b = true) :
    Reads s.reader (s.nameQuote :: name ++ [s.nameQuote]) [] := by
  have hread : Reads s.reader (Name.enclose s.nameQuote name) [] := reads_enclose s.reader name
  rwa [Name.enclose, doubled_word (not_isWord_nameQuote s) h] at hread

theorem reads_qualified (s : Settings) (qualifier : Option String) {name : Bytes}
    (h : ∀ b ∈ name, Byte.isWord b = true) :
    ∃ code, Reads s.reader
        (Name.lead s.nameQuote qualifier ++ s.nameQuote :: name ++ [s.nameQuote]) code ∧
      ∀ b ∈ code, b = Byte.dot ∨ b = Byte.star := by
  obtain ⟨code, hread, hcode⟩ := reads_lead s.reader qualifier
  refine ⟨code ++ [], ?_, ?_⟩
  · have hboth := hread.append (reads_enclosed h)
    rwa [← List.append_assoc] at hboth
  · rwa [List.append_nil]

/-- A word in any form is read as a name or as plain bytes. -/
theorem reads_text {qualifier : Option String} {name : Bytes} (form : WordForm)
    (h : ∀ b ∈ name, Byte.isWord b = true) :
    ∃ code, Reads s.reader (form.text s.nameQuote (Name.lead s.nameQuote qualifier) name) code ∧
      ∀ b ∈ code, isPlain b = true := by
  cases form with
  | bare | called =>
    exact ⟨name, reads_tame fun b hb => isTame_of_isWord (h b hb), fun b hb =>
      isPlain_of_isWord (h b hb)⟩
  | quoted => exact ⟨[], reads_enclosed h, List.forall_mem_nil _⟩
  | qualified =>
    obtain ⟨code, hread, hcode⟩ := reads_qualified s qualifier h
    refine ⟨code, hread, ?_⟩
    intro b hb
    rcases hcode b hb with rfl | rfl <;> decide

/-- A letter before digits between apostrophes. -/
theorem reads_prefixed {letter : UInt8} {digits : Bytes} (hletter : isPrefixLetter letter = true)
    (hdigits : ∀ b ∈ digits, Byte.isWord b = true) :
    Reads s.reader (letter :: Byte.apostrophe :: digits ++ [Byte.apostrophe]) [letter] := by
  have htame : ∀ b ∈ [letter], isTame b = true := by
    rw [List.forall_mem_singleton]
    exact isTame_of_isWord (isWord_of_isPrefixLetter hletter)
  exact (reads_tame htame).append (reads_digits (s := s) hdigits)

/-- What a lexeme shows outside quotes. -/
def Shows (code : Bytes) : Lexeme → Prop
  | .mark b => code = [b]
  | .number text => code = text
  | _ => ∀ b ∈ code, isPlain b = true

/-- A lexeme in the target dialect leaves no literal and no name open. -/
theorem reads_fitted {l : Lexeme} (qualifier : Option String) (afterAs afterDot : Bool)
    (following : List Lexeme) (hmode : mode ≠ .nested)
    (hproper : l.Proper s.usesBackslashEscapes mode) :
    ∃ code, Reads s.reader
        (l.fitted s (Name.lead s.nameQuote qualifier) afterAs afterDot following) code ∧
      l.Shows code := by
  cases l with
  | space run =>
    have hplain : ∀ b ∈ run, isPlain b = true := fun b hb => isPlain_of_isSpace (hproper.2 b hb)
    exact ⟨run, reads_tame fun b hb => isTame_of_isPlain (hplain b hb), hplain⟩
  | word name => exact reads_text _ hproper.2
  | national letter =>
    have hletter : isPrefixLetter letter = true := by rcases hproper with rfl | rfl <;> decide
    have hplain : ∀ b ∈ [letter], isPlain b = true :=
      List.forall_mem_singleton.mpr (isPlain_of_isWord (isWord_of_isPrefixLetter hletter))
    exact ⟨[letter], reads_tame fun b hb => isTame_of_isPlain (hplain b hb), hplain⟩
  | string parts =>
    exact ⟨[], reads_literal (.flatMap fun part hpart => inside_part (hproper part hpart)),
      List.forall_mem_nil _⟩
  | quotedName quote name =>
    exact ⟨[], reads_enclose s.reader name, List.forall_mem_nil _⟩
  | hexString letter digits =>
    have hdigits : ∀ b ∈ digits, Byte.isWord b = true := fun b hb =>
      isWord_of_isHexDigit (hproper.2.1 b hb)
    simp only [fitted]
    split
    · have hword : ∀ b ∈ utf8 "0x" ++ digits, Byte.isWord b = true := by
        simp only [List.forall_mem_append]
        exact ⟨by decide +kernel, hdigits⟩
      exact ⟨utf8 "0x" ++ digits, reads_tame fun b hb => isTame_of_isWord (hword b hb),
        fun b hb => isPlain_of_isWord (hword b hb)⟩
    · have hletter : isPrefixLetter letter = true := by rcases hproper.1 with rfl | rfl <;> decide
      exact ⟨[letter], reads_prefixed hletter hdigits,
        List.forall_mem_singleton.mpr (isPlain_of_isWord (isWord_of_isPrefixLetter hletter))⟩
  | bitString letter digits =>
    have hdigits : ∀ b ∈ digits, Byte.isWord b = true := fun b hb =>
      isWord_of_isBit (hproper.2 b hb)
    have hletter : isPrefixLetter letter = true := by rcases hproper.1 with rfl | rfl <;> decide
    exact ⟨[letter], reads_prefixed hletter hdigits,
      List.forall_mem_singleton.mpr (isPlain_of_isWord (isWord_of_isPrefixLetter hletter))⟩
  | number text => exact ⟨text, reads_tame (IsNumber.isTame hproper), rfl⟩
  | placeholder text => exact absurd hproper.1 hmode
  | mark b =>
    obtain ⟨-, -, -, happ, hdouble, hback, -⟩ := hproper
    refine ⟨[b], .plain ?_, rfl⟩
    intro c hc
    obtain rfl := List.mem_singleton.mp hc
    refine ⟨happ, ?_⟩
    rcases s.reader.quote_eq with hq | hq <;> rw [hq]
    · exact hdouble
    · exact hback

theorem Shows.isTame {l : Lexeme} {code : Bytes} (h : l.Shows code)
    (hproper : l.Proper s.usesBackslashEscapes mode) (hmark : ∀ b, l ≠ .mark b) :
    ∀ b ∈ code, isTame b = true := by
  cases l with
  | mark b => exact absurd rfl (hmark b)
  | number text =>
    obtain rfl : code = text := h
    exact IsNumber.isTame hproper
  | _ => exact fun b hb => isTame_of_isPlain (h b hb)

theorem Shows.not_mem_bannedBytes {l : Lexeme} {code : Bytes} (h : l.Shows code)
    (hproper : l.Proper s.usesBackslashEscapes mode) : ∀ b ∈ code, b ∉ bannedBytes := by
  by_cases hmark : ∃ b, l = .mark b
  · obtain ⟨b, rfl⟩ := hmark
    obtain rfl : code = [b] := h
    obtain ⟨-, -, -, -, hdouble, hback, hquestion, hforbidden⟩ := hproper
    rw [List.forall_mem_singleton]
    simp only [isForbidden, Bool.or_eq_false_iff, beq_eq_false_iff_ne] at hforbidden
    simp only [bannedBytes, List.mem_cons, List.not_mem_nil, or_false]
    grind
  · exact fun b hb => not_mem_bannedBytes_of_isTame
      (h.isTame hproper (fun b hl => hmark ⟨b, hl⟩) b hb)

theorem Shows.balanced {l : Lexeme} {code rest : Bytes} {depth next : Nat} (h : l.Shows code)
    (hproper : l.Proper s.usesBackslashEscapes mode) (hdepth : depthAfter mode depth l = .ok next)
    (hrest : Balanced (mode != .expression) next rest) :
    Balanced (mode != .expression) depth (code ++ rest) := by
  cases l with
  | mark b =>
    obtain rfl : code = [b] := h
    exact Balanced.mark_cons hdepth hrest
  | _ =>
    cases hdepth
    exact Balanced.tame_append (h.isTame hproper nofun) hrest

/-! ### Comments -/

theorem minus_not_mem {run : Bytes} (h : ∀ b ∈ run, Byte.isWord b = true) : Byte.minus ∉ run :=
  fun hmem => absurd (h _ hmem) (by decide)

theorem IsFraction.minus_not_mem {text : Bytes} (h : IsFraction text) : Byte.minus ∉ text := by
  rcases h with rfl | ⟨digits, rfl, hdigits⟩
  · exact List.not_mem_nil
  · exact List.not_mem_cons_of_ne_of_not_mem (by decide)
      (Lexeme.minus_not_mem fun b hb => isWord_of_isDigit (hdigits b hb))

/-- A number is a run of word bytes, or it has decimal digits, a fraction and an exponent. -/
theorem IsNumber.count_minus {text : Bytes} (h : IsNumber text) : text.count Byte.minus ≤ 1 := by
  rcases h.isWord_or with hword | ⟨whole, fraction, exponent, rfl, -, hwhole, hfraction, hexponent⟩
  · rw [List.count_eq_zero.mpr (minus_not_mem hword)]
    exact Nat.zero_le 1
  · have hone : exponent.count Byte.minus ≤ 1 := by
      rcases hexponent with rfl | ⟨letter, sign, digits, rfl, hletter, hsign, -, hdigits⟩
      · exact Nat.zero_le 1
      · have hne : letter ≠ Byte.minus := by rcases hletter with rfl | rfl <;> decide
        have hnone : Byte.minus ∉ digits :=
          minus_not_mem fun b hb => isWord_of_isDigit (hdigits b hb)
        rw [List.count_cons_of_ne hne, List.count_append, List.count_eq_zero.mpr hnone]
        rcases hsign with rfl | rfl | rfl <;> decide
    have hnone : Byte.minus ∉ whole := minus_not_mem fun b hb => isWord_of_isDigit (hwhole b hb)
    rw [List.count_append, List.count_append, List.count_eq_zero.mpr hnone,
      List.count_eq_zero.mpr hfraction.minus_not_mem]
    omega

theorem IsNumber.not_opensComment {x y : Bytes} {a b : UInt8}
    (h : IsNumber (x ++ a :: b :: y)) : ¬ OpensComment a b := by
  rintro (⟨rfl, rfl⟩ | ⟨rfl, -⟩)
  · have hcount := h.count_minus
    rw [List.count_append, List.count_cons_self, List.count_cons_self] at hcount
    omega
  · exact absurd (h.isTame Byte.slash (List.mem_append_right _ List.mem_cons_self)) (by decide)

theorem IsNumber.getLast?_ne_minus {text : Bytes} (h : IsNumber text) :
    text.getLast? ≠ some Byte.minus := by
  intro hlast
  rcases h.isWord_or with hword | ⟨whole, fraction, exponent, rfl, -, hwhole, hfraction, hexponent⟩
  · exact minus_not_mem hword (List.mem_of_getLast? hlast)
  · rcases hexponent with rfl | ⟨letter, sign, digits, rfl, -, -, hne, hdigits⟩
    · rw [List.append_nil] at hlast
      rcases List.mem_append.mp (List.mem_of_getLast? hlast) with hmem | hmem
      · exact minus_not_mem (fun b hb => isWord_of_isDigit (hwhole b hb)) hmem
      · exact hfraction.minus_not_mem hmem
    · have hends : whole ++ (fraction ++ letter :: (sign ++ digits))
          = (whole ++ (fraction ++ letter :: sign)) ++ digits := by simp
      rw [hends, List.getLast?_append_of_ne_nil _ hne] at hlast
      exact minus_not_mem (fun b hb => isWord_of_isDigit (hdigits b hb))
        (List.mem_of_getLast? hlast)

theorem not_hasComment_fitted {l : Lexeme} {qualifier : Option String} {r : Region}
    (hmode : mode ≠ .nested) (hproper : l.Proper s.usesBackslashEscapes mode)
    (hr : r.isOutside = true) :
    ¬ HasComment s.reader r
      (l.fitted s (Name.lead s.nameQuote qualifier) afterAs afterDot following) := by
  obtain ⟨code, hread, hshows⟩ := reads_fitted qualifier afterAs afterDot following hmode hproper
  cases l with
  | mark b => exact not_hasComment_singleton r b
  | number text =>
    apply not_hasComment_of_infix
    intro x a c y htext
    have hnumber : IsNumber text := hproper
    rw [show text = x ++ a :: c :: y from htext] at hnumber
    exact hnumber.not_opensComment
  | _ =>
    apply not_hasComment_of_codeBytes
    intro b hb
    rw [hread.code_eq r hr] at hb
    have hplain := hshows b hb
    constructor <;>
    · rintro rfl
      exact absurd hplain (by decide)

/-- A lexeme whose last byte may be the first of a comment is that byte. -/
theorem eq_mark_of_getLast? {l : Lexeme} {qualifier : Option String} {r : Region} {b : UInt8}
    (hmode : mode ≠ .nested) (hproper : l.Proper s.usesBackslashEscapes mode)
    (hr : r.isOutside = true)
    (hlast : (l.fitted s (Name.lead s.nameQuote qualifier) afterAs afterDot following).getLast?
      = some b)
    (hafter : after s.reader r
      (l.fitted s (Name.lead s.nameQuote qualifier) afterAs afterDot following) = .code)
    (hb : b = Byte.minus ∨ b = Byte.slash) : l = .mark b := by
  obtain ⟨code, hread, hshows⟩ := reads_fitted qualifier afterAs afterDot following hmode hproper
  obtain ⟨x, hx⟩ := List.getLast?_eq_some_iff.mp hlast
  have hmem : b ∈ code := by
    rw [← hread.code_eq r hr, hx]
    exact mem_codeBytes_of_after (by rwa [← hx])
  cases l with
  | mark c =>
    obtain rfl : code = [c] := hshows
    rw [List.mem_singleton.mp hmem]
  | number text =>
    rcases hb with rfl | rfl
    · exact absurd hlast (IsNumber.getLast?_ne_minus hproper)
    · exact absurd (hshows.isTame hproper nofun _ hmem) (by decide)
  | _ =>
    have hplain := hshows b hmem
    rcases hb with rfl | rfl <;> exact absurd hplain (by decide)

/-- The first byte of a word that is qualified is a quote. -/
theorem head?_qualified {qualifier : Option String} {quote : UInt8} {name : Bytes}
    (hqualifier : StartsNamed qualifier) :
    (Name.lead quote qualifier ++ quote :: name ++ [quote]).head? = some quote := by
  rw [List.append_assoc, List.head?_append]
  cases hhead : (Name.lead quote qualifier).head? with
  | none => rfl
  | some b => rw [hqualifier.head?_lead hhead, Option.some_or]

/-! ### Literals at the seams -/

/-- What a text may be followed by: a literal only if it allows one, a word byte only if a reader of
numbers is clear, and any other byte only if it is clear behind that. -/
structure Meets (s : Settings) (before rest : Bytes) : Prop where
  literal : rest.head? = some Byte.apostrophe → AllowsLiteral s before
  word : ∀ b, rest.head? = some b → Byte.isWord b = true → ScansTo s before .clear
  other : ∀ b, rest.head? = some b → Byte.isWord b = false → ScansTo s (before ++ [b]) .clear

theorem Meets.scansTo {l : Lexeme} {before rest : Bytes} {b : UInt8}
    (h : Meets s before (l.source ++ rest)) (hb : l.source.head? = some b)
    (hword : Byte.isWord b = true) : ScansTo s before .clear :=
  h.word b (by rw [List.head?_append, hb, Option.some_or]) hword

theorem meets_of_scansTo {before : Bytes} (h : ScansTo s before .clear) (rest : Bytes) :
    Meets s before rest where
  literal _ := h.endsInNoWord.allowsLiteral
  word _ _ _ := h
  other b _ hb :=
    Numeral.step_eq_clear (n := .clear) hb (absurd · (by decide)) (by decide) ▸ h.byte b

/-- What is no word byte may follow a text, if no number goes on with it. -/
theorem meets_of_stop {before rest : Bytes} {n : Numeral} (h : ScansTo s before n)
    (hletter : n ≠ .letter) (hwhole : n = .whole → rest.head? ≠ some Byte.dot)
    (hstop : ∀ b, rest.head? = some b → Byte.isWord b = false)
    (hquote : rest.head? = some Byte.apostrophe → AllowsLiteral s before) :
    Meets s before rest where
  literal := hquote
  word b hb hword := absurd ((hstop b hb).symm.trans hword) Bool.false_ne_true
  other b hb hword := by
    refine Numeral.step_eq_clear hword ?_ hletter ▸ h.byte b
    rintro hn rfl
    exact hwhole hn hb

theorem endsInNoWord_digits {x digits : Bytes} {b : UInt8} (hb : Byte.isWord b = false)
    (hdigits : ∀ c ∈ digits, Byte.isDigit c = true) : EndsInNoWord (x ++ b :: digits) := by
  rw [List.append_cons]
  exact (endsInNoWord_concat hb).append_run (fun c hc => isWord_of_isDigit (hdigits c hc))
    fun c hc => hdigits c (List.mem_of_mem_head? hc)

/-- The first digits of a number start the run of word bytes that they are in. -/
theorem endsInNoWord_whole {before whole run : Bytes} (hbefore : EndsInNoWord before)
    (hne : whole ≠ []) (hwhole : ∀ b ∈ whole, Byte.isDigit b = true)
    (hrun : ∀ b ∈ run, Byte.isWord b = true) : EndsInNoWord (before ++ (whole ++ run)) := by
  obtain ⟨d, hd, hdigit⟩ := head?_of_forall_mem hne hwhole
  apply hbefore.append_run
  · exact List.forall_mem_append.mpr ⟨fun b hb => isWord_of_isDigit (hwhole b hb), hrun⟩
  · intro b hb
    rw [List.head?_append, hd, Option.some_or] at hb
    exact Option.some.inj hb ▸ hdigit

/-- The run of word bytes at the end of a number with an exponent starts with a digit, or it is the
exponent. -/
theorem allowsLiteral_exponent {before whole fraction digits : Bytes} {letter : UInt8}
    (hbefore : ScansTo s before .clear) (hne : whole ≠ [])
    (hwhole : ∀ b ∈ whole, Byte.isDigit b = true) (hfraction : IsFraction fraction)
    (hletter : letter = 0x65 ∨ letter = 0x45) (hdigits : digits ≠ [])
    (hdigit : ∀ b ∈ digits, Byte.isDigit b = true) :
    AllowsLiteral s (before ++ (whole ++ (fraction ++ letter :: digits))) := by
  have hexponent : ∀ b ∈ letter :: digits, Byte.isWord b = true := by
    refine List.forall_mem_cons.mpr ⟨?_, fun b hb => isWord_of_isDigit (hdigit b hb)⟩
    rcases hletter with rfl | rfl <;> decide
  rcases hfraction with rfl | ⟨_ | ⟨c, rest⟩, rfl, hfraction⟩
  · exact (endsInNoWord_whole hbefore.endsInNoWord hne hwhole hexponent).allowsLiteral
  · exact fun _ _ _ => Or.inr ⟨before ++ whole, letter, digits, by simp,
      hbefore.digits hne hwhole, hletter, hdigits, hdigit⟩
  · have hsplit : before ++ (whole ++ (Byte.dot :: c :: rest ++ letter :: digits))
        = (before ++ whole ++ [Byte.dot]) ++ (c :: rest ++ letter :: digits) := by simp
    rw [hsplit]
    exact (endsInNoWord_whole (endsInNoWord_concat (by decide)) (List.cons_ne_nil c rest) hfraction
      hexponent).allowsLiteral

/-- A literal may follow a decimal number directly. -/
theorem allowsLiteral_decimal {before whole fraction exponent : Bytes}
    (hbefore : ScansTo s before .clear) (hne : whole ≠ [])
    (hwhole : ∀ b ∈ whole, Byte.isDigit b = true) (hfraction : IsFraction fraction)
    (hexponent : IsExponent exponent) :
    AllowsLiteral s (before ++ (whole ++ (fraction ++ exponent))) := by
  rcases hexponent with rfl | ⟨letter, sign, digits, rfl, hletter, hsign, hdigits, hdigit⟩
  · rw [List.append_nil]
    rcases hfraction with rfl | ⟨digits, rfl, hdigit⟩
    · exact (endsInNoWord_whole hbefore.endsInNoWord hne hwhole (List.forall_mem_nil _)).allowsLiteral
    · rw [← List.append_assoc]
      exact (endsInNoWord_digits (by decide) hdigit).allowsLiteral
  · have hsigned (b : UInt8) (hb : Byte.isWord b = false) :
        AllowsLiteral s (before ++ (whole ++ (fraction ++ letter :: ([b] ++ digits)))) := by
      have hsplit : before ++ (whole ++ (fraction ++ letter :: ([b] ++ digits)))
          = (before ++ (whole ++ (fraction ++ [letter]))) ++ b :: digits := by simp
      rw [hsplit]
      exact (endsInNoWord_digits hb hdigit).allowsLiteral
    rcases hsign with rfl | rfl | rfl
    · exact allowsLiteral_exponent hbefore hne hwhole hfraction hletter hdigits hdigit
    · exact hsigned Byte.plus (by decide)
    · exact hsigned Byte.minus (by decide)

theorem IsNumber.allowsLiteral {before text : Bytes} (hbefore : ScansTo s before .clear)
    (h : IsNumber text) : AllowsLiteral s (before ++ text) := by
  rcases h.isWord_or with
    hword | ⟨whole, fraction, exponent, rfl, hne, hwhole, hfraction, hexponent⟩
  · refine (hbefore.endsInNoWord.append_run hword ?_).allowsLiteral
    intro b hb
    obtain ⟨c, hc, hdigit⟩ := h.head?
    rw [hc] at hb
    exact Option.some.inj hb ▸ hdigit
  · exact allowsLiteral_decimal hbefore hne hwhole hfraction hexponent

/-- A lexeme that may end in a word byte in the target dialect. -/
def MayEndInWord (s : Settings) : Lexeme → Prop
  | .word _ | .national _ | .number _ => True
  | .hexString _ _ => s.family = .mssql
  | _ => False

theorem isBreak_nameQuote (s : Settings) : Numeral.isBreak s.nameQuote = true := by
  rcases s.reader.quote_eq with h | h <;> rw [show s.nameQuote = _ from h] <;> decide

/-- Behind any other lexeme a reader of numbers is clear. -/
theorem scansTo_fitted {l : Lexeme} {before rest : Bytes} (lead : Bytes) (afterAs afterDot : Bool)
    (following : List Lexeme) (hmode : mode ≠ .nested)
    (hproper : l.Proper s.usesBackslashEscapes mode) (hmeets : Meets s before (l.source ++ rest)) :
    l.MayEndInWord s ∨
      ScansTo s (before ++ l.fitted s lead afterAs afterDot following) .clear := by
  have hclear {text : Bytes} {b : UInt8} (hlast : text.getLast? = some b)
      (hb : Numeral.isBreak b = true) : ScansTo s (before ++ text) .clear := by
    apply scansTo_of_getLast? _ hb
    rw [List.getLast?_append, hlast, Option.some_or]
  cases l with
  | space run =>
    obtain ⟨x, b, rfl⟩ := (List.eq_nil_or_concat run).resolve_left hproper.1
    rw [List.concat_eq_append] at hproper ⊢
    have hspace : Byte.isSpace b = true :=
      hproper.2 b (List.mem_append_right _ List.mem_cons_self)
    refine Or.inr (hclear List.getLast?_concat ?_)
    grind [Numeral.isBreak, Byte.isSpace, Byte.isWord, Byte.isWordStart, Byte.isLetter,
      Byte.isDigit]
  | word name | national letter | number text => exact Or.inl trivial
  | string parts => exact Or.inr (hclear List.getLast?_concat (by decide))
  | quotedName quote name => exact Or.inr (hclear List.getLast?_concat (isBreak_nameQuote s))
  | hexString letter digits =>
    simp only [fitted]
    split
    · rename_i hfamily
      exact Or.inl hfamily
    · exact Or.inr (hclear List.getLast?_concat (by decide))
  | bitString letter digits => exact Or.inr (hclear List.getLast?_concat (by decide))
  | placeholder text => exact absurd hproper.1 hmode
  | mark b => exact Or.inr (hmeets.other b rfl (by simp [Byte.isWord, hproper.2.1, hproper.2.2.1]))

/-- Behind a word in any form a reader of numbers is at that word, or clear. -/
theorem scansTo_text {before name : Bytes} (lead : Bytes) (form : WordForm)
    (hbefore : ScansTo s before .clear)
    (hproper : (Lexeme.word name).Proper s.usesBackslashEscapes mode) :
    ∃ n, ScansTo s (before ++ form.text s.nameQuote lead name) n ∧ n ≠ .whole ∧ n ≠ .letter := by
  have hclosed (x : Bytes) : ∃ n, ScansTo s (before ++ (x ++ [s.nameQuote])) n ∧
      n ≠ .whole ∧ n ≠ .letter := by
    refine ⟨.clear, scansTo_of_getLast? ?_ (isBreak_nameQuote s), by decide, by decide⟩
    rw [← List.append_assoc, List.getLast?_concat]
  cases form with
  | bare | called => exact ⟨.word, hbefore.word hproper.1 hproper.2, by decide, by decide⟩
  | quoted | qualified => exact hclosed _

/-- What follows a lexeme in the text it was read from may follow it in the target dialect. -/
theorem meets_fitted {l : Lexeme} {before rest : Bytes} (hmode : mode ≠ .nested)
    (hproper : l.Proper s.usesBackslashEscapes mode) (hleaves : l.Leaves rest)
    (hstops : l.Stops rest) (hmeets : Meets s before (l.source ++ rest)) :
    Meets s (before ++ l.fitted s lead afterAs afterDot following) rest := by
  rcases scansTo_fitted lead afterAs afterDot following hmode hproper hmeets with hends | hclear
  · cases l with
    | word name =>
      obtain ⟨c, hc, hstart⟩ := hproper.1
      have hbefore := hmeets.scansTo hc (by simp [Byte.isWord, hstart])
      obtain ⟨n, hn, hwhole, hletter⟩ := scansTo_text lead
        (wordForm s afterAs afterDot name following) hbefore hproper
      exact meets_of_stop hn hletter (absurd · hwhole) (fun b hb => (hleaves b hb).1)
        fun hquote => absurd rfl (hleaves _ hquote).2
    | national letter =>
      have hletter : isPrefixLetter letter = true := by rcases hproper with rfl | rfl <;> decide
      have hstart : Byte.isWordStart letter = true := by rcases hproper with rfl | rfl <;> decide
      have hword := isWord_of_isPrefixLetter hletter
      have hbefore := hmeets.word letter rfl hword
      refine meets_of_stop (hbefore.word ⟨letter, rfl, hstart⟩ (List.forall_mem_singleton.mpr hword))
        (by decide) (absurd · (by decide)) ?_
        fun _ => hbefore.endsInNoWord.allowsLiteral_concat hletter
      intro b hb
      obtain rfl : Byte.apostrophe = b := Option.some.inj (hleaves.symm.trans hb)
      decide
    | hexString letter digits =>
      have hletter : isPrefixLetter letter = true := by rcases hproper.1 with rfl | rfl <;> decide
      have hbefore := hmeets.word letter rfl (isWord_of_isPrefixLetter hletter)
      rw [fitted, if_pos (show s.family = .mssql from hends)]
      exact meets_of_scansTo (hbefore.literal hends hproper.2.1 hproper.2.2) rest
    | number text =>
      obtain ⟨b, hb, hdigit⟩ := IsNumber.head? hproper
      have hbefore := hmeets.scansTo hb (isWord_of_isDigit hdigit)
      obtain ⟨n, hn, hletter, hwhole⟩ := IsNumber.scansTo hproper hbefore
      exact meets_of_stop hn hletter (fun hdigits => hstops (hwhole hdigits)) hleaves
        fun _ => IsNumber.allowsLiteral hbefore hproper
    | _ => exact hends.elim
  · exact meets_of_scansTo hclear rest

theorem literalsAllowed_prefixed {letter : UInt8} {digits before : Bytes}
    (hletter : isPrefixLetter letter = true) (hdigits : ∀ b ∈ digits, Byte.isWord b = true)
    (hbefore : ScansTo s before .clear) (hout : (after s.reader .code before).isOutside = true) :
    LiteralsAllowed s before (letter :: Byte.apostrophe :: digits ++ [Byte.apostrophe]) := by
  have hword : ∀ b ∈ [letter], Byte.isWord b = true :=
    List.forall_mem_singleton.mpr (isWord_of_isPrefixLetter hletter)
  have hfirst : LiteralsAllowed s before [letter] :=
    literalsAllowed_of_not_mem fun hmem => absurd (hword _ hmem) (by decide)
  have hletterOut : (after s.reader .code (before ++ [letter])).isOutside = true := by
    rw [after_append]
    exact (reads_tame fun b hb => isTame_of_isWord (hword b hb)).ends _ hout
  exact hfirst.append ((reads_digits hdigits).literalsAllowed (List.forall_mem_nil _) hletterOut
    fun _ => hbefore.endsInNoWord.allowsLiteral_concat hletter)

theorem literalsAllowed_fitted {l : Lexeme} {qualifier : Option String} {before rest : Bytes}
    (hmode : mode ≠ .nested) (hqualifier : StartsNamed qualifier)
    (hproper : l.Proper s.usesBackslashEscapes mode)
    (hout : (after s.reader .code before).isOutside = true)
    (hmeets : Meets s before (l.source ++ rest)) :
    LiteralsAllowed s before
      (l.fitted s (Name.lead s.nameQuote qualifier) afterAs afterDot following) := by
  have hquote : s.nameQuote ≠ Byte.apostrophe := @quote_ne_apostrophe s.reader
  cases l with
  | space run =>
    exact literalsAllowed_of_not_mem fun hmem => absurd (hproper.2 _ hmem) (by decide)
  | word name =>
    have hbare : Byte.apostrophe ∉ name := fun hmem => absurd (hproper.2 _ hmem) (by decide)
    simp only [fitted]
    cases wordForm s afterAs afterDot name following with
    | bare | called => exact literalsAllowed_of_not_mem hbare
    | quoted =>
      apply (reads_enclosed hproper.2).literalsAllowed (List.forall_mem_nil _) hout
      intro hhead
      exact absurd (Option.some.inj hhead) hquote
    | qualified =>
      obtain ⟨code, hread, hcode⟩ := reads_qualified s qualifier hproper.2
      refine hread.literalsAllowed (?_) hout ?_
      · intro b hb
        rcases hcode b hb with rfl | rfl <;> decide
      · intro hhead
        rw [head?_qualified hqualifier] at hhead
        exact absurd (Option.some.inj hhead) hquote
  | national letter =>
    apply literalsAllowed_of_not_mem
    intro hmem
    obtain rfl : Byte.apostrophe = letter := List.mem_singleton.mp hmem
    rcases hproper with h | h <;> exact absurd h (by decide)
  | string parts =>
    have hread : Reads s.reader
        (Byte.apostrophe :: parts.flatMap StringPart.fitted ++ [Byte.apostrophe]) [] :=
      reads_literal (.flatMap fun part hpart => inside_part (hproper part hpart))
    exact hread.literalsAllowed (List.forall_mem_nil _) hout fun _ => hmeets.literal rfl
  | quotedName quote name =>
    apply (reads_enclose s.reader name).literalsAllowed (List.forall_mem_nil _) hout
    intro hhead
    exact absurd (Option.some.inj hhead) hquote
  | hexString letter digits =>
    have hletter : isPrefixLetter letter = true := by rcases hproper.1 with rfl | rfl <;> decide
    have hdigits : ∀ b ∈ digits, Byte.isWord b = true := fun b hb =>
      isWord_of_isHexDigit (hproper.2.1 b hb)
    simp only [fitted]
    split
    · apply literalsAllowed_of_not_mem
      intro hmem
      rcases List.mem_append.mp hmem with hmem | hmem
      · exact absurd hmem (by decide)
      · exact absurd (hdigits _ hmem) (by decide)
    · have hbefore := hmeets.word letter rfl (isWord_of_isPrefixLetter hletter)
      exact literalsAllowed_prefixed hletter hdigits hbefore hout
  | bitString letter digits =>
    have hletter : isPrefixLetter letter = true := by rcases hproper.1 with rfl | rfl <;> decide
    have hbefore := hmeets.word letter rfl (isWord_of_isPrefixLetter hletter)
    exact literalsAllowed_prefixed hletter (fun b hb => isWord_of_isBit (hproper.2 b hb)) hbefore
      hout
  | number text =>
    exact literalsAllowed_of_not_mem fun hmem =>
      absurd (IsNumber.isTame hproper _ hmem) (by decide)
  | placeholder text => exact absurd hproper.1 hmode
  | mark b =>
    apply literalsAllowed_of_not_mem
    intro hmem
    exact hproper.2.2.2.1 (List.mem_singleton.mp hmem).symm

/-! ### Whole texts -/

variable {qualifier : Option String} {closing : Bool}

theorem Accepted.reads {depth : Nat} {lexemes : List Lexeme} (qualifier : Option String)
    (afterAs afterDot closing : Bool)
    (h : Accepted s.usesBackslashEscapes mode depth lexemes) (hmode : mode ≠ .nested) :
    ∃ code, Reads s.reader
        (fittedFrom s (Name.lead s.nameQuote qualifier) afterAs afterDot closing lexemes) code ∧
      (∀ b ∈ code, b ∉ bannedBytes) ∧ Balanced (mode != .expression) depth code := by
  induction h generalizing afterAs afterDot closing with
  | nil => exact ⟨[], Reads.nil, List.forall_mem_nil _, rfl⟩
  | @cons l rest depth next hproper hleaves hdepth hrest ih =>
    obtain ⟨codes, hreads, hclean, hbalanced⟩ := ih (l.expectsAlias afterAs)
      (l == .mark Byte.dot) (l.closesUp s afterAs afterDot rest)
    obtain ⟨text, htext, hown⟩ := fittedFrom_cons s (Name.lead s.nameQuote qualifier) afterAs
      afterDot closing l rest
    rw [htext]
    rcases hown with rfl | ⟨-, hspace, rfl⟩
    · obtain ⟨code, hread, hshows⟩ := reads_fitted qualifier afterAs afterDot rest hmode hproper
      refine ⟨code ++ codes, hread.append hreads, ?_, hshows.balanced hproper hdepth hbalanced⟩
      exact List.forall_mem_append.mpr ⟨hshows.not_mem_bannedBytes hproper, hclean⟩
    · have hsame : depth = next := by
        cases l with
        | space run => exact Except.ok.inj hdepth
        | _ => cases hspace
      exact ⟨codes, hreads, hclean, hsame ▸ hbalanced⟩

theorem Accepted.not_hasComment {depth : Nat} {lexemes : List Lexeme} {r : Region}
    (h : Accepted s.usesBackslashEscapes mode depth lexemes) (hmode : mode ≠ .nested)
    (hqualifier : StartsNamed qualifier) (hr : r.isOutside = true) :
    ¬ HasComment s.reader r
      (fittedFrom s (Name.lead s.nameQuote qualifier) afterAs afterDot closing lexemes) := by
  induction h generalizing afterAs afterDot closing r with
  | nil => exact not_hasComment_nil r
  | @cons l rest depth next hproper hleaves hdepth hrest ih =>
    obtain ⟨text, htext, hown⟩ := fittedFrom_cons s (Name.lead s.nameQuote qualifier) afterAs
      afterDot closing l rest
    rw [htext]
    rcases hown with rfl | ⟨-, -, rfl⟩
    · obtain ⟨code, hread, hshows⟩ := reads_fitted qualifier afterAs afterDot rest hmode hproper
      rw [hasComment_append]
      rintro (hown | hlater | ⟨a, b, hlast, hhead, hopens, hcode, -⟩)
      · exact not_hasComment_fitted hmode hproper hr hown
      · exact ih (hread.ends r hr) hlater
      · -- both bytes of the comment would be marks, and the reader refuses these side by side
        have hfirst : a = Byte.minus ∨ a = Byte.slash := hopens.imp And.left And.left
        have hsecond : b = Byte.minus ∨ b = Byte.star := hopens.imp And.right And.right
        obtain rfl := eq_mark_of_getLast? hmode hproper hr hlast hcode hfirst
        have hkept : Kept (Name.lead s.nameQuote qualifier) b := by
          rcases hsecond with rfl | rfl <;> exact kept_of_startsNamed s hqualifier (by decide) (by decide)
        have hsource := (head?_fittedFrom_eq_iff hrest hkept).mp hhead
        rcases hopens with ⟨rfl, rfl⟩ | ⟨rfl, rfl⟩
        · exact hleaves.1 rfl hsource
        · exact hleaves.2 rfl hsource
    · exact ih hr

/-- White space that is closed up stands before a parenthesis, which anything may precede. -/
theorem meets_of_opensCall {run before : Bytes} {rest : List Lexeme}
    (h : opensCall (.space run :: rest) = true) : Meets s before (sources rest) := by
  have hhead := head?_sources_of_opensCall h
  constructor
  · intro hquote
    exact absurd (Option.some.inj (hhead.symm.trans hquote)) (by decide)
  · intro b hb hword
    obtain rfl : Byte.openParen = b := Option.some.inj (hhead.symm.trans hb)
    exact absurd hword (by decide)
  · intro b hb _
    obtain rfl : Byte.openParen = b := Option.some.inj (hhead.symm.trans hb)
    exact scansTo_of_getLast? List.getLast?_concat (by decide)

theorem Accepted.literalsAllowed {depth : Nat} {lexemes : List Lexeme} {before : Bytes}
    (h : Accepted s.usesBackslashEscapes mode depth lexemes) (hstops : AllStop lexemes)
    (hmode : mode ≠ .nested) (hqualifier : StartsNamed qualifier)
    (hout : (after s.reader .code before).isOutside = true)
    (hclosing : closing = true → opensCall lexemes = true)
    (hmeets : Meets s before (sources lexemes)) :
    LiteralsAllowed s before
      (fittedFrom s (Name.lead s.nameQuote qualifier) afterAs afterDot closing lexemes) := by
  induction h generalizing afterAs afterDot closing before with
  | nil => exact literalsAllowed_of_not_mem List.not_mem_nil
  | @cons l rest depth next hproper hleaves hdepth hrest ih =>
    obtain ⟨text, htext, hown⟩ := fittedFrom_cons s (Name.lead s.nameQuote qualifier) afterAs
      afterDot closing l rest
    rw [htext]
    rcases hown with rfl | ⟨rfl, hspace, rfl⟩
    · obtain ⟨code, hread, hshows⟩ := reads_fitted qualifier afterAs afterDot rest hmode hproper
      apply (literalsAllowed_fitted hmode hqualifier hproper hout hmeets).append
      refine ih hstops.2 ?_ opensCall_of_closesUp
        (meets_fitted hmode hproper hleaves hstops.1 hmeets)
      rw [after_append]
      exact hread.ends _ hout
    · cases l with
      | space run =>
        exact ih hstops.2 hout opensCall_of_closesUp (meets_of_opensCall (hclosing rfl))
      | _ => cases hspace

end Lexeme

/-! ### Safe texts -/

theorem confined_of_fitText {text out : Bytes} {qualifier : Option String} {s : Settings}
    {mode : SafeMode} (hmode : mode ≠ .nested) (hqualifier : StartsNamed qualifier)
    (h : fitText qualifier s mode text = .ok out) : Confined s mode out := by
  obtain ⟨lexemes, hread, rfl⟩ := fitText_eq_ok_iff.mp h
  obtain ⟨haccepted, hstops, -⟩ := Lexeme.readAll_eq_ok_iff.mp hread
  obtain ⟨code, hread, hclean, hbalanced⟩ := haccepted.reads qualifier false false false hmode
  have hliterals : LiteralsAllowed s [] (Lexeme.fittedFrom s
      (Name.lead s.nameQuote qualifier) false false false lexemes) :=
    haccepted.literalsAllowed hstops hmode hqualifier rfl nofun (Lexeme.meets_of_scansTo .nil _)
  exact {
    closed := hread.ends .code rfl
    clean := by rwa [hread.code_eq .code rfl]
    noComment := haccepted.not_hasComment hmode hqualifier rfl
    balanced := by rwa [hread.code_eq .code rfl]
    literals := hliterals }

/-- What the library makes of a text is confined, whatever the text and the settings are. -/
theorem confined_of_sanitize {text out : String} {qualifier : Option String} {s : Settings}
    {mode : SafeMode} (hmode : mode = .expression ∨ mode = .chunk)
    (hqualifier : StartsNamed qualifier) (h : sanitize text qualifier s mode = .ok out) :
    Confined s mode (utf8 out) := by
  refine confined_of_fitText ?_ hqualifier (fitText_of_sanitize h)
  rcases hmode with rfl | rfl <;> nofun

/-- A name beside a literal, which the server reads as they are meant. -/
theorem confined_of_sanitize_comparison :
    sanitize "a = 'it''s'" (some "t") (Settings.ofDialect .postgres) .expression
        = .ok "\"t\".\"a\" = 'it''s'" ∧
      Confined (Settings.ofDialect .postgres) .expression
        (utf8 "\"t\".\"a\" = 'it''s'") := by
  have hnamed : StartsNamed (some "t") := by
    intro name hname
    cases hname
    decide +kernel
  have hsafe : sanitize "a = 'it''s'" (some "t") (Settings.ofDialect .postgres) .expression
      = .ok "\"t\".\"a\" = 'it''s'" := by decide +kernel
  exact ⟨hsafe, confined_of_sanitize (Or.inl rfl) hnamed hsafe⟩

/-- The exponent of a number is a word that a literal may follow, where only a point stands between
it and the digits. The digits may have run together with a hexadecimal literal. -/
theorem literal_after_exponent :
    (sanitize "1.e5'a'" none (Settings.ofDialect .postgres) .expression = .ok "1.e5'a'" ∧
      utf8 "1.e5'a'" = utf8 "1.e5" ++ Byte.apostrophe :: utf8 "a'" ∧
      (Region.after (Settings.ofDialect .postgres).reader .code (utf8 "1.e5")).isOutside = true ∧
      trailingRun (utf8 "1.e5") = utf8 "e5") ∧
    (sanitize "x'0a'1.e5'a'" none (Settings.ofDialect .mssql) .expression = .ok "0x0a1.e5'a'" ∧
      utf8 "0x0a1.e5'a'" = utf8 "0x0a1.e5" ++ Byte.apostrophe :: utf8 "a'" ∧
      (Region.after (Settings.ofDialect .mssql).reader .code (utf8 "0x0a1.e5")).isOutside = true ∧
      trailingRun (utf8 "0x0a1.e5") = utf8 "e5") := by
  refine ⟨⟨?_, ?_, ?_, ?_⟩, ?_, ?_, ?_, ?_⟩ <;> decide +kernel

end SqlTemplate
