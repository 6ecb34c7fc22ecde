import SqlTemplate.Proofs.Conditions
import SqlTemplate.Proofs.Qualification
import SqlTemplate.Proofs.ReadBack

/-!
# Literals as safe texts

Literals are written by one part of the program and read by another, which knows nothing of values.
Every literal is read without a complaint (`Literal.Reads`), as one of five forms
(`Lexeme.IsLiteral`), none of which is changed when it is fitted, with one exception: where quotes
are forced, a word beside a point and an alias after its keyword are names, whatever the word. The
main statement is `keepsLiteral_of_quote`.
-/

namespace SqlTemplate

open Render

/-! ### Characters of JSON texts -/

namespace Layout

/-- The characters of a number that are no digits. -/
def marks : List Char := ['-', '+', '.', 'e']

theorem mem_positional {pointZero : Bool} {digits : List Char} {exponent : Int}
    (h : ∀ c ∈ digits, c.isDigit = true) :
    ∀ c ∈ positional pointZero digits exponent, c.isDigit = true ∨ c ∈ marks := by
  have hdigit {text : List Char} (htext : ∀ c ∈ text, c.isDigit = true) :
      ∀ c ∈ text, c.isDigit = true ∨ c ∈ marks := fun c hc => Or.inl (htext c hc)
  have hpoint : '.'.isDigit = true ∨ '.' ∈ marks := Or.inr (by decide)
  unfold positional
  split
  · simp only [List.forall_mem_append]
    refine ⟨⟨hdigit h, hdigit (Literal.isDigit_zeros _)⟩, ?_⟩
    split
    · exact List.forall_mem_cons.mpr ⟨hpoint, List.forall_mem_singleton.mpr (by decide)⟩
    · exact List.forall_mem_nil _
  · dsimp only
    split
    · exact List.forall_mem_append.mpr ⟨hdigit fun c hc => h c (List.mem_of_mem_take hc),
        List.forall_mem_cons.mpr ⟨hpoint, hdigit fun c hc => h c (List.mem_of_mem_drop hc)⟩⟩
    · simp only [List.cons_append, List.forall_mem_cons, List.forall_mem_append]
      exact ⟨by decide, hpoint, hdigit (Literal.isDigit_zeros _), hdigit h⟩

theorem mem_scientific {digits : List Char} {lead : Int} (h : ∀ c ∈ digits, c.isDigit = true) :
    ∀ c ∈ scientific digits lead, c.isDigit = true ∨ c ∈ marks := by
  unfold scientific
  simp only [List.forall_mem_append, List.forall_mem_cons]
  refine ⟨⟨fun c hc => Or.inl (h c (List.mem_of_mem_take hc)), ?_⟩, Or.inr (by decide), ?_,
    fun c hc => Or.inl (Literal.isDigit_toDigits _ c hc)⟩
  · split
    · exact List.forall_mem_nil _
    · exact List.forall_mem_cons.mpr
        ⟨Or.inr (by decide), fun c hc => Or.inl (h c (List.mem_of_mem_drop hc))⟩
  · split <;> exact Or.inr (by decide)

theorem mem_decimalText (format : Layout) (d : Decimal) :
    ∀ c ∈ format.decimalText d, c.isDigit = true ∨ c ∈ marks := by
  unfold decimalText
  dsimp only
  split
  · exact mem_positional (Literal.isDigit_toDigits _)
  · exact mem_scientific (Literal.isDigit_toDigits _)

theorem mem_text (format : Layout) (x : Binary64) :
    ∀ c ∈ format.text x, c.isDigit = true ∨ c ∈ marks := by
  refine List.forall_mem_append.mpr ⟨?_, mem_decimalText format _⟩
  split
  · exact List.forall_mem_singleton.mpr (Or.inr (by decide))
  · exact List.forall_mem_nil _

end Layout

namespace Json

theorem ne_nul_of_contains {text : List Char} (h : text.contains '\x00' = false) :
    ∀ c ∈ text, c ≠ '\x00' := by
  rintro c hc rfl
  exact Bool.false_ne_true (h.symm.trans (List.contains_iff_mem.mpr hc))

theorem ne_nul_of_isDigit {c : Char} (h : c.isDigit = true) : c ≠ '\x00' := by
  rintro rfl
  exact absurd h (by decide)

theorem ne_nul_of_isDigit_or {text marks : List Char}
    (h : ∀ c ∈ text, c.isDigit = true ∨ c ∈ marks) (hmarks : marks.contains '\x00' = false) :
    ∀ c ∈ text, c ≠ '\x00' :=
  fun c hc => (h c hc).elim ne_nul_of_isDigit (ne_nul_of_contains hmarks c)

theorem digitChar_ne_nul (n : Nat) : Nat.digitChar n ≠ '\x00' := by
  grind [Nat.digitChar]

theorem ne_nul_escaped (c : Char) : ∀ d ∈ escaped c, d ≠ '\x00' := by
  unfold escaped
  iterate 7
    split
    · exact ne_nul_of_contains rfl
  split
  · simp only [List.forall_mem_cons]
    exact ⟨by decide, by decide, by decide, by decide, digitChar_ne_nul _, digitChar_ne_nul _,
      List.forall_mem_nil _⟩
  · rename_i hcontrol
    refine List.forall_mem_singleton.mpr ?_
    rintro rfl
    exact hcontrol (by decide)

theorem ne_nul_stringText (s : String) : ∀ c ∈ stringText s, c ≠ '\x00' := by
  refine List.forall_mem_append.mpr ⟨List.forall_mem_cons.mpr ⟨by decide, ?_⟩,
    List.forall_mem_singleton.mpr (by decide)⟩
  intro d hd
  obtain ⟨c, -, hd⟩ := List.mem_flatMap.mp hd
  exact ne_nul_escaped c d hd

theorem ne_nul_intText (n : Int) : ∀ c ∈ intText n, c ≠ '\x00' := by
  refine List.forall_mem_append.mpr ⟨?_, fun c hc => ne_nul_of_isDigit (Literal.isDigit_toDigits _ c hc)⟩
  split
  · exact List.forall_mem_singleton.mpr (by decide)
  · exact List.forall_mem_nil _

theorem ne_nul_numberText (x : Binary64) : ∀ c ∈ numberLayout.text x, c ≠ '\x00' :=
  ne_nul_of_isDigit_or (Layout.mem_text _ x) rfl

theorem ne_nul_separator (later : Bool) : ∀ c ∈ (if later then [','] else []), c ≠ '\x00' := by
  cases later with
  | true => exact List.forall_mem_singleton.mpr (by decide)
  | false => exact List.forall_mem_nil _

mutual

/-- A JSON text has no character zero: it is escaped in strings and stands nowhere else. -/
theorem ne_nul_text : (j : Json) → ∀ c ∈ j.text, c ≠ '\x00'
  | .null => by
    rw [text]
    exact ne_nul_of_contains rfl
  | .bool b => by
    rw [text]
    cases b <;> exact ne_nul_of_contains rfl
  | .int n => by
    rw [text]
    exact ne_nul_intText n
  | .float x => by
    rw [text]
    exact ne_nul_numberText x
  | .str s => by
    rw [text]
    exact ne_nul_stringText s
  | .arr items => by
    rw [text]
    exact List.forall_mem_append.mpr ⟨List.forall_mem_cons.mpr
      ⟨by decide, ne_nul_itemsText false items⟩, List.forall_mem_singleton.mpr (by decide)⟩
  | .obj members => by
    rw [text]
    exact List.forall_mem_append.mpr ⟨List.forall_mem_cons.mpr
      ⟨by decide, ne_nul_membersText false members⟩, List.forall_mem_singleton.mpr (by decide)⟩

theorem ne_nul_itemsText (later : Bool) : (items : List Json) →
    ∀ c ∈ itemsText later items, c ≠ '\x00'
  | [] => by
    rw [itemsText]
    exact List.forall_mem_nil _
  | item :: rest => by
    rw [itemsText]
    exact List.forall_mem_append.mpr ⟨List.forall_mem_append.mpr
      ⟨ne_nul_separator later, ne_nul_text item⟩, ne_nul_itemsText true rest⟩

theorem ne_nul_membersText (later : Bool) : (members : List (String × Json)) →
    ∀ c ∈ membersText later members, c ≠ '\x00'
  | [] => by
    rw [membersText]
    exact List.forall_mem_nil _
  | (key, value) :: rest => by
    rw [membersText]
    simp only [List.forall_mem_append, List.forall_mem_cons]
    exact ⟨⟨⟨ne_nul_separator later, ne_nul_stringText key⟩, by decide, ne_nul_text value⟩,
      ne_nul_membersText true rest⟩

end

end Json

namespace Literal

/-- Only the character zero has the byte zero. -/
theorem nul_notMem_chars {text : List Char} (h : ∀ c ∈ text, c ≠ '\x00') :
    Byte.nul ∉ chars text := by
  intro hmem
  rw [chars_eq_flatMap] at hmem
  obtain ⟨c, hc, hmem⟩ := List.mem_flatMap.mp hmem
  rcases IsText.utf8EncodeChar_cases c with ⟨b, hb, -⟩ | hlarge
  · rw [hb] at hmem
    obtain rfl := List.mem_singleton.mp hmem
    have hsame : chars [c] = chars ['\x00'] := by
      rw [chars_eq_flatMap, chars_eq_flatMap, List.flatMap_singleton, List.flatMap_singleton, hb]
      rfl
    have hlist := congrArg String.toList (utf8_injective hsame)
    rw [String.toList_ofList, String.toList_ofList] at hlist
    exact h c hc (List.cons.inj hlist).1
  · exact absurd (hlarge _ hmem) (by decide)

/-! ### Strings -/

/-- How a byte of a string is read in its literal. -/
def stringPart (noBackslashEscapes : Bool) (b : UInt8) : StringPart :=
  if b = Byte.apostrophe then .pair
  else if isDoubled noBackslashEscapes b then .escaped b
  else .plain b

theorem source_stringParts (noBackslashEscapes : Bool) (text : Bytes) :
    (text.map (stringPart noBackslashEscapes)).flatMap StringPart.source
      = stringBody noBackslashEscapes text := by
  induction text with
  | nil => rfl
  | cons b rest ih =>
    rw [List.map_cons, List.flatMap_cons, ih, stringBody, stringPart]
    by_cases hquote : b = Byte.apostrophe
    · subst hquote
      rw [if_pos rfl, if_pos (by simp [isDoubled])]
      rfl
    · rw [if_neg hquote]
      by_cases hdoubled : isDoubled noBackslashEscapes b = true
      · obtain rfl : b = Byte.backslash := by
          simp only [isDoubled, Bool.or_eq_true, Bool.and_eq_true, beq_iff_eq] at hdoubled
          exact (hdoubled.resolve_left hquote).1
        rw [if_pos hdoubled, if_pos hdoubled]
        rfl
      · rw [if_neg hdoubled, if_neg hdoubled]
        rfl

theorem proper_stringPart {noBackslashEscapes : Bool} {b : UInt8} (hb : b ≠ Byte.nul) :
    (stringPart noBackslashEscapes b).Proper (!noBackslashEscapes) := by
  unfold stringPart
  split
  · trivial
  rename_i hquote
  split
  · rename_i hdoubled
    simp only [isDoubled, Bool.or_eq_true, Bool.and_eq_true, beq_iff_eq] at hdoubled
    exact ⟨(hdoubled.resolve_left hquote).2, hb⟩
  · rename_i hplain
    refine ⟨hb, hquote, ?_⟩
    rintro rfl
    simpa [isDoubled, hquote] using hplain

theorem stringPart_ne_escaped (noBackslashEscapes : Bool) (b : UInt8) :
    stringPart noBackslashEscapes b ≠ .escaped Byte.apostrophe := by
  unfold stringPart
  split
  · exact StringPart.noConfusion
  rename_i hquote
  split
  · exact fun h => hquote (StringPart.escaped.inj h)
  · exact StringPart.noConfusion

/-- A string of which no byte is written twice. -/
theorem stringBody_of_plain {noBackslashEscapes : Bool} {text : Bytes}
    (h : ∀ b ∈ text, b ≠ Byte.apostrophe ∧ b ≠ Byte.backslash) :
    stringBody noBackslashEscapes text = text := by
  induction text with
  | nil => rfl
  | cons b rest ih =>
    obtain ⟨hb, hrest⟩ := List.forall_mem_cons.mp h
    rw [stringBody, if_neg (by simp [isDoubled, hb.1, hb.2]), ih hrest]

/-- The words among literals. -/
def words : List String := ["NULL", "TRUE", "FALSE"]

end Literal

/-! ### How literals are read -/

/-- The lexemes that literals are read as. -/
inductive Lexeme.IsLiteral (s : Settings) : List Lexeme → Prop
  | word {word : String} (h : word ∈ Literal.words) : IsLiteral s [.word (utf8 word)]
  | number (text : Bytes) : IsLiteral s [.number text]
  | negative (text : Bytes) : IsLiteral s [.mark Byte.minus, .number text]
  | string {parts : List StringPart} (h : .escaped Byte.apostrophe ∉ parts) :
    IsLiteral s [.string parts]
  | hexString {letter : UInt8} {digits : Bytes} (h : s.family ≠ .mssql) :
    IsLiteral s [.hexString letter digits]

namespace Literal

variable {s : Settings} {mode : SafeMode}

/-- A text is read as a literal. -/
def IsRead (s : Settings) (mode : SafeMode) (text : Bytes) : Prop :=
  ∃ own, Lexeme.readAll s.usesBackslashEscapes mode 0 text = .ok own ∧ Lexeme.IsLiteral s own

/-- A lexeme that opens no parenthesis makes up a text by itself. -/
theorem readAll_source {escapes : Bool} {l : Lexeme} (hproper : l.Proper escapes mode)
    (hleaves : l.Leaves []) (hstops : l.Stops [])
    (hdepth : Lexeme.depthAfter mode 0 l = .ok 0) :
    Lexeme.readAll escapes mode 0 l.source = .ok [l] := by
  have hread := Lexeme.readAll_append hproper hleaves hstops hdepth
  rwa [List.append_nil, Lexeme.readAll, if_pos rfl] at hread

/-- The words among literals are neither a single letter nor the keyword before an alias. -/
theorem form_of_mem_words {word : String} (h : word ∈ words) :
    ((∃ b, (utf8 word).head? = some b ∧ Byte.isWordStart b = true) ∧
      ∀ b ∈ utf8 word, Byte.isWord b = true) ∧
      (utf8 word).length ≠ 1 ∧ Lexeme.isAs (utf8 word) = false := by
  have hall : (words.all fun word => (utf8 word).head?.any Byte.isWordStart &&
      (utf8 word).all Byte.isWord && (utf8 word).length != 1 && !Lexeme.isAs (utf8 word)) = true := by
    decide +kernel
  have hword := List.all_eq_true.mp hall word h
  simp only [Bool.and_eq_true, Option.any_eq_true, List.all_eq_true, bne_iff_ne,
    Bool.not_eq_true'] at hword
  exact ⟨hword.1.1, hword.1.2, hword.2⟩

theorem isRead_word {word : String} (h : word ∈ words) : IsRead s mode (utf8 word) := by
  obtain ⟨hform, hlength, -⟩ := form_of_mem_words h
  have hproper : (Lexeme.word (utf8 word)).Proper s.usesBackslashEscapes mode := hform
  refine ⟨_, readAll_source hproper ?_ ?_ rfl, .word h⟩
  · intro b hb
    cases hb
  · rintro ⟨hname | hname, -⟩ <;> exact hlength (congrArg List.length hname)

theorem isNumber_of_decimal {whole fraction : Bytes} (hne : whole ≠ [])
    (hwhole : ∀ b ∈ whole, Byte.isDigit b = true)
    (hfraction : fraction = [] ∨ ∃ digits, fraction = Byte.dot :: digits ∧ digits ≠ [] ∧
      ∀ b ∈ digits, Byte.isDigit b = true) : Lexeme.IsNumber (whole ++ fraction) := by
  refine Or.inr ⟨whole, fraction, [], by rw [List.append_nil], hne, hwhole, ?_, Or.inl rfl⟩
  exact hfraction.imp_right fun ⟨digits, hdigits, _, hall⟩ => ⟨digits, hdigits, hall⟩

theorem readAll_number {escapes : Bool} {text : Bytes} (h : Lexeme.IsNumber text) :
    Lexeme.readAll escapes mode 0 text = .ok [.number text] := by
  have hproper : (Lexeme.number text).Proper escapes mode := h
  refine readAll_source hproper ?_ ?_ rfl
  · intro b hb
    cases hb
  · intro _ hdot
    cases hdot

theorem isRead_decimal {text : Bytes} (h : IsDecimal text) : IsRead s mode text := by
  obtain ⟨sign, whole, fraction, rfl, hsign, hne, hwhole, hfraction⟩ := h
  have hnumber := isNumber_of_decimal hne hwhole hfraction
  rcases hsign with rfl | rfl
  · exact ⟨_, readAll_number hnumber, .number _⟩
  · obtain ⟨b, hb, hdigit⟩ := hnumber.head?
    have hleaves : (Lexeme.mark Byte.minus).Leaves (whole ++ fraction) := by
      constructor
      · rintro - hhead
        obtain rfl : b = Byte.minus := Option.some.inj (hb.symm.trans hhead)
        exact absurd hdigit (by decide)
      · exact fun hslash => absurd hslash (by decide)
    have hproper : (Lexeme.mark Byte.minus).Proper s.usesBackslashEscapes mode := by
      simp +decide [Lexeme.Proper]
    have hdepth : Lexeme.depthAfter mode 0 (.mark Byte.minus) = .ok 0 := by
      cases mode <;> rfl
    have hread := Lexeme.readAll_append hproper hleaves trivial hdepth
    rw [readAll_number hnumber] at hread
    exact ⟨_, hread, .negative _⟩

theorem isRead_string {text : Bytes} (h : Byte.nul ∉ text) :
    IsRead s mode (string s.noBackslashEscapes text) := by
  have hproper : (Lexeme.string (text.map (stringPart s.noBackslashEscapes))).Proper
      s.usesBackslashEscapes mode := by
    intro part hpart
    obtain ⟨b, hb, rfl⟩ := List.mem_map.mp hpart
    exact proper_stringPart fun hnul => h (hnul ▸ hb)
  have hleaves : (Lexeme.string (text.map (stringPart s.noBackslashEscapes))).Leaves [] := by
    intro hhead
    cases hhead
  have hread := readAll_source hproper hleaves trivial rfl
  rw [Lexeme.source, source_stringParts] at hread
  refine ⟨_, hread, .string fun hmem => ?_⟩
  obtain ⟨b, -, hb⟩ := List.mem_map.mp hmem
  exact stringPart_ne_escaped _ _ hb

theorem isRead_json (s : Settings) (mode : SafeMode) (j : Json) :
    IsRead s mode (json s.literalStyle j) :=
  isRead_string (nul_notMem_chars j.ne_nul_text)

theorem isRead_dateText {text : List Char}
    (h : ∀ c ∈ text, c.isDigit = true ∨ c ∈ calendarMarks) : IsRead s mode (dateText text) := by
  have hplain : stringBody s.noBackslashEscapes (chars text) = chars text := by
    refine stringBody_of_plain fun b hb => ?_
    rcases mem_chars _ toNat_lt_of_mem_calendarMarks h b hb with hdigit | ⟨c, hc, rfl⟩
    · constructor <;>
      · rintro rfl
        exact absurd hdigit (by decide)
    · exact ne_of_mem_calendarMarks c hc
  have hnul : Byte.nul ∉ chars text := nul_notMem_chars (Json.ne_nul_of_isDigit_or h rfl)
  have hread : IsRead s mode (string s.noBackslashEscapes (chars text)) := isRead_string hnul
  rwa [string, hplain] at hread

theorem even_length_hexText (bytes : Bytes) : (hexText bytes).length % 2 = 0 := by
  induction bytes with
  | nil => rfl
  | cons b rest ih =>
    have hcons : (hexText (b :: rest)).length = (hexText rest).length + 2 := rfl
    omega

theorem isRead_byteString (s : Settings) (mode : SafeMode) (bytes : Bytes) :
    IsRead s mode (byteString s.literalStyle.isMssql bytes) := by
  unfold byteString
  split
  · exact ⟨_, readAll_number (Or.inl ⟨0x78, hexText bytes, rfl, Or.inl rfl,
      isHexDigit_of_mem_hexText⟩), .number _⟩
  · rename_i hfamily
    have hproper : (Lexeme.hexString 0x78 (hexText bytes)).Proper s.usesBackslashEscapes mode :=
      ⟨Or.inl rfl, isHexDigit_of_mem_hexText, even_length_hexText bytes⟩
    exact ⟨_, readAll_source hproper trivial trivial rfl,
      .hexString (by simpa [Settings.literalStyle] using hfamily)⟩

theorem isRead_bool (s : Settings) (mode : SafeMode) (isMssql b : Bool) :
    IsRead s mode (utf8 (boolText isMssql b)) := by
  have hdigit {digit : UInt8} (h : Byte.isDigit digit = true) : IsRead s mode [digit] := by
    refine ⟨_, readAll_number (Or.inr ⟨[digit], [], [], rfl, List.cons_ne_nil _ _,
      List.forall_mem_singleton.mpr h, Or.inl rfl, Or.inl rfl⟩), .number _⟩
  cases isMssql with
  | true => cases b <;> exact hdigit (by decide)
  | false => cases b <;> exact isRead_word (by decide)

/-- Every literal is read as one, but for a string with the byte zero. -/
theorem isRead_of_literal {v : Value} {bytes : Bytes} (mode : SafeMode)
    (hnul : ∀ text, v = .str text → Byte.nul ∉ utf8 text)
    (h : v.literal s.literalStyle = .ok bytes) : IsRead s mode bytes := by
  cases v with
  | null =>
    cases h
    exact isRead_word (by decide)
  | bool b =>
    cases h
    exact isRead_bool s mode _ b
  | int n =>
    cases h
    exact isRead_decimal (isDecimal_intText _)
  | uint n | bigint n =>
    obtain ⟨n, -, hok⟩ := bind_eq_ok h
    cases hok
    exact isRead_decimal (isDecimal_intText _)
  | float x =>
    simp only [Value.literal, scalar] at h
    split at h
    · cases h
      exact isRead_decimal (isDecimal_text x)
    · cases h
  | str text =>
    cases h
    exact isRead_string (hnul text rfl)
  | bytes b =>
    cases h
    exact isRead_byteString s mode b
  | date d =>
    cases h
    exact isRead_dateText (mem_dateText d)
  | dateTime t =>
    cases h
    exact isRead_dateText (mem_dateTimeText t)
  | json j =>
    cases h
    exact isRead_json s mode j
  | list items | map entries =>
    obtain ⟨j, -, hok⟩ := bind_eq_ok h
    cases hok
    exact isRead_json s mode _
  | fragment f | foreign name => cases h

end Literal

/-! ### How literals are fitted -/

/-- The part of a lexeme that stays as it is. -/
def FittedPart.kept (l : Lexeme) : FittedPart := ⟨l.source, l.source, false⟩

namespace Lexeme

variable {s : Settings} {own after : List Lexeme} {afterAs afterDot closing : Bool}

theorem flatMap_under_kept (lead : Bytes) (lexemes : List Lexeme) :
    (lexemes.map FittedPart.kept).flatMap (FittedPart.under lead) = sources lexemes := by
  rw [List.flatMap_map]
  rfl

theorem fitted_string {parts : List StringPart} (h : .escaped Byte.apostrophe ∉ parts) :
    parts.flatMap StringPart.fitted = parts.flatMap StringPart.source := by
  rw [List.flatMap_def, List.flatMap_def]
  congr 1
  refine List.map_congr_left fun part hpart => ?_
  rw [StringPart.fitted, if_neg]
  rintro rfl
  exact h hpart

/-- A listed word stays bare, unless quotes are forced and it is an alias or beside a point. -/
theorem wordForm_eq_bare_of_allows {name : Bytes} (hallows : s.idents.allows name = true)
    (hkeyword : isAs name = false)
    (hforced : s.alwaysQuote = true →
      afterAs = false ∧ afterDot = false ∧ startsWithDot after = false) :
    wordForm s afterAs afterDot name after = .bare := by
  unfold wordForm
  grind

theorem partsFrom_cons_kept {l : Lexeme} (hspace : l.isSpace = false)
    (hfitted : l.fitted s [] afterAs afterDot after = l.source)
    (hcolumn : l.isColumn s afterAs afterDot after = false) :
    partsFrom s afterAs afterDot closing (l :: after) = FittedPart.kept l ::
      partsFrom s (l.expectsAlias afterAs) (l == .mark Byte.dot) (l.closesUp s afterAs afterDot after)
        after := by
  rw [partsFrom, part, hspace, Bool.and_false, if_neg Bool.false_ne_true, hfitted, hcolumn]
  rfl

/-- A literal stays as it is among other lexemes, if it does where it is a word. -/
theorem IsLiteral.partsFrom_append (h : IsLiteral s own)
    (hform : ∀ word ∈ Literal.words, own = [.word (utf8 word)] →
      wordForm s afterAs afterDot (utf8 word) after = .bare) :
    ∃ afterAs' afterDot' closing', partsFrom s afterAs afterDot closing (own ++ after)
      = own.map FittedPart.kept ++ partsFrom s afterAs' afterDot' closing' after := by
  cases h with
  | @word word h =>
    have hbare := hform word h rfl
    have hfitted : (Lexeme.word (utf8 word)).fitted s [] afterAs afterDot after = utf8 word := by
      rw [fitted, hbare]
      rfl
    have hcolumn : (Lexeme.word (utf8 word)).isColumn s afterAs afterDot after = false := by
      rw [isColumn, hbare]
      rfl
    exact ⟨_, _, _, partsFrom_cons_kept rfl hfitted hcolumn⟩
  | number text => exact ⟨_, _, _, partsFrom_cons_kept rfl rfl rfl⟩
  | negative text =>
    exact ⟨_, _, _, (partsFrom_cons_kept rfl rfl rfl).trans
      (congrArg (FittedPart.kept (.mark Byte.minus) :: ·) (partsFrom_cons_kept rfl rfl rfl))⟩
  | string h =>
    have hstays := congrArg (fun body => Byte.apostrophe :: body ++ [Byte.apostrophe])
      (fitted_string h)
    exact ⟨_, _, _, partsFrom_cons_kept rfl hstays rfl⟩
  | hexString h => exact ⟨_, _, _, partsFrom_cons_kept rfl (if_neg h) rfl⟩

end Lexeme

/-! ### Literals in holes -/

/-- In a hole for an expression a literal is written and then checked. -/
theorem writes_expression_literal {s : Settings} {v : Value} {bytes : Bytes}
    (qualifier : Option String) (hfragment : ∀ f, v ≠ .fragment f) (hstr : ∀ text, v ≠ .str text)
    (h : v.literal s.literalStyle = .ok bytes) :
    Writes (writeExpression s qualifier v) (liftM (fitText qualifier s .expression bytes)) := by
  have hstep : writeExpression s qualifier v
      = sanitized qualifier s .expression (liftM (v.literal s.literalStyle) >>= write) := by
    cases v with
    | fragment f => exact absurd rfl (hfragment f)
    | str text => exact absurd rfl (hstr text)
    | list items =>
      simp only [writeExpression, writeJson, Value.literal]
      cases jsonItems items <;> rfl
    | map entries =>
      simp only [writeExpression, writeJson, Value.literal]
      cases jsonMembers entries <;> rfl
    | _ => simp only [writeExpression, writeLiteral, Value.literal]
  rw [hstep, h]
  exact (Writes.write bytes).sanitized

/-- Under a qualifier, what a fragment writes is checked. -/
theorem piece_expression_qualified (s : Settings) (q : String) (f : Fragment) :
    (writeExpression s (some q) (.fragment f)).piece =
      (embedded s f.settings (f.render s (some q))).piece >>= fun text =>
        liftM (fitText (some q) s .nested text) := by
  obtain ⟨child, head, holes, sizeHint⟩ := f
  have hlocal : Local (embedded s child (renderFrom s (some q) 0 head holes)) :=
    (writes_embedded (isLocal_holes s holes)).isLocal
  simp only [writeExpression]
  exact hlocal.sanitized.piece_eq

/-- A literal is read in a checked text, between the lexemes `before` and `after`, as it is read
alone; and where quotes are forced and it is a word, it is neither an alias nor beside a point. -/
structure StandsAsLiteral (s : Settings) (text : String) (whole : Bytes)
    (before own after : List Lexeme) : Prop where
  whole : Lexeme.readAll s.usesBackslashEscapes .nested 0 whole = .ok (before ++ (own ++ after))
  alone : Lexeme.readAll s.usesBackslashEscapes .nested 0 (utf8 text) = .ok own
  forced : s.alwaysQuote = true → text ∈ Literal.words →
    ¬ Server.IsAliasAt (.source s) (Lexeme.sources before) (utf8 text ++ Lexeme.sources after) ∧
    (Lexeme.sources before).getLast? ≠ some Byte.dot ∧
    (Lexeme.sources after).head? ≠ some Byte.dot

/-- A text is fitted under a qualifier with the lexemes `own` as they are, whatever becomes of those
before and after them. -/
def FitsAround (s : Settings) (q : String) (before own after : List Lexeme) (out : Bytes) : Prop :=
  let lead := Name.lead s.nameQuote (some q)
  ∃ front back, Lexeme.partsFrom s false false false (before ++ (own ++ after))
      = front ++ (own.map FittedPart.kept ++ back) ∧
    front.map FittedPart.source = before.map Lexeme.source ∧
    back.map FittedPart.source = after.map Lexeme.source ∧
    out = front.flatMap (FittedPart.under lead) ++
      (Lexeme.sources own ++ back.flatMap (FittedPart.under lead))

/-- What holds of the literal `text` of a value. -/
structure KeepsLiteral (s : Settings) (v : Value) (text : String) : Prop where
  alone : ∀ qualifier mode, sanitize text qualifier s mode = .ok text
  /-- In a hole for an expression just the literal is written, but for a string, which is taken for
  an expression there. -/
  hole : (∀ str, v ≠ .str str) → ∀ qualifier,
    Writes (writeExpression s qualifier v) (pure (utf8 text))
  /-- What a fragment writes is checked once more under a qualifier. -/
  nested : ∀ (q : String) (f : Fragment) (sink sink' : Sink) (whole : Bytes)
    (before own after : List Lexeme),
    (embedded s f.settings (f.render s (some q))).piece.result sink = (.ok whole, sink') →
    StandsAsLiteral s text whole before own after →
    Lexeme.sources own = utf8 text ∧
    ∃ out, (writeExpression s (some q) (.fragment f)).piece.result sink = (.ok out, sink') ∧
      FitsAround s q before own after out

section

variable {s : Settings} {text : String} {whole : Bytes} {before own after : List Lexeme}

/-- A word among literals stays bare where it stands as a literal. -/
theorem StandsAsLiteral.wordForm_eq (h : StandsAsLiteral s text whole before own after)
    (hallows : s.idents.allows (utf8 text) = true) (hword : text ∈ Literal.words)
    (hown : own = [.word (utf8 text)]) :
    Lexeme.wordForm s (before.foldl (fun expected l => l.expectsAlias expected) false)
      (before.foldl (fun _ l => l == .mark Byte.dot) false) (utf8 text) after = .bare := by
  subst hown
  have hread := h.whole
  obtain ⟨_, hsuffix⟩ := Lexeme.readAll_suffix hread
  obtain ⟨-, -, -, _, hrest⟩ := Lexeme.cons_of_readAll hsuffix
  obtain ⟨haccepted, -, -⟩ := Lexeme.readAll_eq_ok_iff.mp hrest
  refine Lexeme.wordForm_eq_bare_of_allows hallows (Literal.form_of_mem_words hword).2.2
    fun hquote => ?_
  obtain ⟨halias, hbefore, hafter⟩ := h.forced hquote hword
  exact ⟨Bool.eq_false_iff.mpr (mt (Lexeme.isAliasAt_iff hread).mpr halias),
    Bool.eq_false_iff.mpr (mt (Lexeme.getLast?_sources_eq_dot_iff hread).mpr hbefore),
    Bool.eq_false_iff.mpr (mt haccepted.startsWithDot_iff.mp hafter)⟩

/-- A literal that stands as one stays as it is. -/
theorem StandsAsLiteral.fitsAround (h : StandsAsLiteral s text whole before own after)
    (hwords : ∀ word ∈ Literal.words, s.idents.allows (utf8 word) = true)
    (hliteral : Lexeme.IsLiteral s own) (q : String) :
    ∃ out, fitText (some q) s .nested whole = .ok out ∧ FitsAround s q before own after out := by
  obtain ⟨-, -, hown⟩ := Lexeme.readAll_eq_ok_iff.mp h.alone
  obtain ⟨front, closing, hfront, hsources⟩ :=
    Lexeme.exists_partsFrom_append s false false false before (own ++ after)
  have hform : ∀ word ∈ Literal.words, own = [.word (utf8 word)] →
      Lexeme.wordForm s (before.foldl (fun expected l => l.expectsAlias expected) false)
        (before.foldl (fun _ l => l == .mark Byte.dot) false) (utf8 word) after = .bare := by
    rintro word hword rfl
    obtain rfl : word = text := utf8_injective ((List.append_nil _).symm.trans hown)
    exact h.wordForm_eq (hwords word hword) hword rfl
  obtain ⟨afterAs, afterDot, closing', hback⟩ := hliteral.partsFrom_append hform
  rw [hback] at hfront
  refine ⟨_, fitText_eq_ok_iff.mpr ⟨_, h.whole, rfl⟩, front, _, hfront, hsources,
    Lexeme.map_source_partsFrom .., ?_⟩
  rw [Lexeme.fittedFrom_eq_flatMap, hfront, List.flatMap_append, List.flatMap_append,
    Lexeme.flatMap_under_kept]

/-- A text that is read as a literal is fitted already. -/
theorem Lexeme.IsLiteral.fitText_eq (qualifier : Option String) {mode : SafeMode} {bytes : Bytes}
    (hwords : ∀ word ∈ Literal.words, s.idents.allows (utf8 word) = true)
    (h : Lexeme.IsLiteral s own)
    (hread : Lexeme.readAll s.usesBackslashEscapes mode 0 bytes = .ok own) :
    fitText qualifier s mode bytes = .ok bytes := by
  have hform : ∀ word ∈ Literal.words, own = [.word (utf8 word)] →
      Lexeme.wordForm s false false (utf8 word) [] = .bare := by
    intro word hword _
    exact Lexeme.wordForm_eq_bare_of_allows (hwords word hword)
      (Literal.form_of_mem_words hword).2.2 fun _ => ⟨rfl, rfl, rfl⟩
  obtain ⟨afterAs, afterDot, closing, hparts⟩ := h.partsFrom_append hform
  refine fitText_eq_ok_iff.mpr ⟨own, hread, ?_⟩
  rw [List.append_nil, Lexeme.partsFrom, List.append_nil] at hparts
  rw [Lexeme.fittedFrom_eq_flatMap, hparts, Lexeme.flatMap_under_kept]
  exact (Lexeme.readAll_eq_ok_iff.mp hread).2.2.symm

end

/-- If the settings list the words among literals, then a literal is a safe text, and stays as it is
when it is checked. In a hole for an expression a value that is no string writes its literal; and in
a fragment that is checked once more under a qualifier, a literal that stands as one stays. -/
theorem keepsLiteral_of_quote {s : Settings} {v : Value} {text : String}
    (hwords : ∀ word ∈ Literal.words, s.idents.allows (utf8 word) = true)
    (hfragment : ∀ f, v ≠ .fragment f) (hnul : ∀ str, v = .str str → Byte.nul ∉ utf8 str)
    (hquote : Value.quote s.literalStyle v = .ok text) : KeepsLiteral s v text := by
  have hliteral := Value.literal_of_quote hfragment hquote
  have hfit (qualifier : Option String) (mode : SafeMode) :
      fitText qualifier s mode (utf8 text) = .ok (utf8 text) := by
    obtain ⟨own, hread, hown⟩ := Literal.isRead_of_literal mode hnul hliteral
    exact hown.fitText_eq qualifier hwords hread
  refine ⟨fun qualifier mode => sanitize_eq_ok_iff.mpr (hfit qualifier mode), ?_, ?_⟩
  · intro hstr qualifier
    have hwrites := writes_expression_literal qualifier hfragment hstr hliteral
    rw [hfit] at hwrites
    exact hwrites
  · intro q f sink sink' whole before own after hwhole hstands
    obtain ⟨_, hread, hown⟩ := Literal.isRead_of_literal .nested hnul hliteral
    obtain rfl := Except.ok.inj (hread.symm.trans hstands.alone)
    obtain ⟨out, hout, hfits⟩ := hstands.fitsAround hwords hown q
    refine ⟨(Lexeme.readAll_eq_ok_iff.mp hread).2.2, out, ?_, hfits⟩
    rw [piece_expression_qualified, Piece.result_bind, hwhole]
    exact congrArg (·, sink') hout

/-- A test for null, whose column takes a qualifier. -/
theorem keepsLiteral_of_quote_null :
    let s := Settings.ofDialect .postgres
    let f : Fragment := ⟨s, "a IS ", [(.null, "")], 0⟩
    Value.quote s.literalStyle .null = .ok "NULL" ∧ KeepsLiteral s .null "NULL" ∧
    ((embedded s s (f.render s (some "t"))).piece.result none).1 = .ok (utf8 "a IS NULL") ∧
    StandsAsLiteral s "NULL" (utf8 "a IS NULL")
      [.word (utf8 "a"), .space (utf8 " "), .word (utf8 "IS"), .space (utf8 " ")]
      [.word (utf8 "NULL")] [] ∧
    ((writeExpression s (some "t") (.fragment f)).piece.result none).1
      = .ok (utf8 "\"t\".\"a\" IS NULL") := by
  intro s f
  have hwords : (Literal.words.all fun word => s.idents.allows (utf8 word)) = true := by
    decide +kernel
  have hquote : Value.quote s.literalStyle .null = .ok "NULL" := by decide +kernel
  refine ⟨hquote, keepsLiteral_of_quote (List.all_eq_true.mp hwords) ?_ ?_ hquote, by decide +kernel,
    ⟨by decide +kernel, by decide +kernel, ?_⟩, by decide +kernel⟩
  · intro f h
    cases h
  · intro str h
    cases h
  · intro h
    cases h

/-- Two literals that do not stand as such: a word where quotes are forced and an alias is expected,
and a string that runs together with the letter before it. -/
theorem literals_altered :
    (let s := { Settings.ofDialect .postgres with alwaysQuote := true }
      let inner : Fragment := ⟨s, "1 AS ", [(.null, "")], 0⟩
      (Literal.words.all fun word => s.idents.allows (utf8 word)) = true ∧
      Value.quote s.literalStyle .null = .ok "NULL" ∧ inner.toSql = .ok "1 AS NULL" ∧
      Fragment.toSql ⟨s, "", [(.str "t", ".("), (.fragment inner, ")")], 0⟩
        = .ok "(1 AS \"NULL\")") ∧
    (let s := Settings.ofDialect .mssql
      let inner : Fragment := ⟨s, "Id = x'", [(.str "0aff", "'")], 0⟩
      (Literal.words.all fun word => s.idents.allows (utf8 word)) = true ∧
      Value.quote s.literalStyle (.str "0aff") = .ok "'0aff'" ∧ inner.toSql = .ok "Id = x'0aff'" ∧
      Fragment.toSql ⟨s, "", [(.str "t", ".("), (.fragment inner, ")")], 0⟩
        = .ok "(\"t\".\"Id\" = 0x0aff)") := by
  decide +kernel

end SqlTemplate
