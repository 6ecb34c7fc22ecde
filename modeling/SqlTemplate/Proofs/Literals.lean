import SqlTemplate.Literal
import SqlTemplate.Proofs.Region

/-!
# The bytes of literals

Literals are put together from characters, and read by the server as bytes. Here is what their bytes
are: a number is an optional sign, digits, and digits after a point if there are any; a string, a
date and a JSON text stand between apostrophes that the server finds again.
-/

namespace SqlTemplate

namespace Literal

/-! ### Characters and bytes -/

theorem chars_eq_flatMap (text : List Char) : chars text = text.flatMap String.utf8EncodeChar := by
  simp [chars, utf8, List.utf8Encode, List.data_toByteArray]

theorem chars_append (x y : List Char) : chars (x ++ y) = chars x ++ chars y := by
  rw [chars_eq_flatMap, chars_eq_flatMap, chars_eq_flatMap, List.flatMap_append]

theorem chars_ne_nil {text : List Char} (h : text ≠ []) : chars text ≠ [] := by
  rw [chars_eq_flatMap]
  cases text with
  | nil => exact absurd rfl h
  | cons c rest =>
    intro hnil
    have hc := (List.flatMap_eq_nil_iff.mp hnil) c List.mem_cons_self
    have hsize := c.utf8Size_pos
    rw [← String.length_utf8EncodeChar, hc] at hsize
    exact absurd hsize (Nat.lt_irrefl 0)

/-- An ASCII character is the byte of the same number. -/
theorem utf8EncodeChar_of_toNat_lt {c : Char} (h : c.toNat < 128) :
    String.utf8EncodeChar c = [c.toNat.toUInt8] := by
  have hle : c.val ≤ 0x7f := by
    rw [UInt32.le_iff_toNat_le]
    exact Nat.le_of_lt_succ h
  rw [String.utf8EncodeChar_eq_singleton (by simp [Char.utf8Size, hle])]
  rfl

/-- The bytes of a text in which every character is a digit or among `others`, all of them ASCII. -/
theorem mem_chars (others : List Char) {text : List Char} (hothers : ∀ c ∈ others, c.toNat < 128)
    (h : ∀ c ∈ text, c.isDigit = true ∨ c ∈ others) :
    ∀ b ∈ chars text, Byte.isDigit b = true ∨ ∃ c ∈ others, b = c.toNat.toUInt8 := by
  intro b hb
  rw [chars_eq_flatMap] at hb
  obtain ⟨c, hc, hb⟩ := List.mem_flatMap.mp hb
  rcases h c hc with hdigit | hother
  · simp only [Char.isDigit, Bool.and_eq_true, decide_eq_true_eq, UInt32.le_iff_toNat_le] at hdigit
    have hlow : 48 ≤ c.toNat := hdigit.1
    have hhigh : c.toNat ≤ 57 := hdigit.2
    rw [utf8EncodeChar_of_toNat_lt (by omega)] at hb
    obtain rfl := List.mem_singleton.mp hb
    have hbyte : c.toNat.toUInt8.toNat = c.toNat := by
      rw [Nat.toUInt8, UInt8.toNat_ofNat']
      exact Nat.mod_eq_of_lt (by omega)
    left
    simp only [Byte.isDigit, Bool.and_eq_true, decide_eq_true_eq, UInt8.le_iff_toNat_le, hbyte]
    exact ⟨hlow, hhigh⟩
  · rw [utf8EncodeChar_of_toNat_lt (hothers c hother)] at hb
    exact Or.inr ⟨c, hother, List.mem_singleton.mp hb⟩

theorem isDigit_of_mem_chars {text : List Char} (h : ∀ c ∈ text, c.isDigit = true) :
    ∀ b ∈ chars text, Byte.isDigit b = true := by
  intro b hb
  rcases mem_chars [] nofun (fun c hc => Or.inl (h c hc)) b hb with hdigit | ⟨c, hc, -⟩
  · exact hdigit
  · cases hc

theorem isDigit_toDigits (n : Nat) : ∀ c ∈ Nat.toDigits 10 n, c.isDigit = true := fun _ hc =>
  Nat.isDigit_of_mem_toDigits (by decide) (by decide) hc

/-! ### Numbers -/

/-- A sign if need be, digits, and digits after a point if there are any. -/
def IsDecimal (text : Bytes) : Prop :=
  ∃ sign whole fraction, text = sign ++ (whole ++ fraction) ∧ (sign = [] ∨ sign = [Byte.minus]) ∧
    whole ≠ [] ∧ (∀ b ∈ whole, Byte.isDigit b = true) ∧
    (fraction = [] ∨ ∃ digits, fraction = Byte.dot :: digits ∧ digits ≠ [] ∧
      ∀ b ∈ digits, Byte.isDigit b = true)

theorem isDecimal_intText (n : Int) : IsDecimal (chars (Json.intText n)) := by
  refine ⟨chars (if n < 0 then ['-'] else []), chars (Nat.toDigits 10 n.natAbs), [], ?_, ?_, ?_, ?_,
    Or.inl rfl⟩
  · rw [Json.intText, chars_append, List.append_nil]
  · split
    · exact Or.inr (by decide +kernel)
    · exact Or.inl (by decide +kernel)
  · exact chars_ne_nil Nat.toDigits_ne_nil
  · exact isDigit_of_mem_chars (isDigit_toDigits n.natAbs)

theorem isDigit_zeros (n : Nat) : ∀ c ∈ Layout.zeros n, c.isDigit = true := by
  intro c hc
  obtain rfl := List.eq_of_mem_replicate hc
  decide

/-- Digits laid out positionally have a point only where digits follow it. -/
theorem positional_eq (digits : List Char) (hne : digits ≠ [])
    (hdigits : ∀ c ∈ digits, c.isDigit = true) (exponent : Int) :
    ∃ whole fraction, Layout.positional false digits exponent = whole ++ fraction ∧ whole ≠ [] ∧
      (∀ c ∈ whole, c.isDigit = true) ∧
      (fraction = [] ∨ ∃ rest, fraction = '.' :: rest ∧ rest ≠ [] ∧
        ∀ c ∈ rest, c.isDigit = true) := by
  unfold Layout.positional
  split
  · refine ⟨digits ++ Layout.zeros exponent.toNat, [], rfl, ?_, ?_, Or.inl rfl⟩
    · simp [hne]
    · exact List.forall_mem_append.mpr ⟨hdigits, isDigit_zeros _⟩
  · rename_i hexponent
    have hlength := List.length_pos_of_ne_nil hne
    dsimp only
    split
    · rename_i hwhole
      refine ⟨_, _, rfl, ?_, ?_, Or.inr ⟨_, rfl, ?_, ?_⟩⟩
      · intro hnil
        have hzero := congrArg List.length hnil
        rw [List.length_take, List.length_nil] at hzero
        omega
      · exact fun c hc => hdigits c (List.mem_of_mem_take hc)
      · intro hnil
        have hzero := congrArg List.length hnil
        rw [List.length_drop, List.length_nil] at hzero
        omega
      · exact fun c hc => hdigits c (List.mem_of_mem_drop hc)
    · refine ⟨['0'], _, rfl, nofun, List.forall_mem_singleton.mpr rfl, Or.inr ⟨_, rfl, ?_, ?_⟩⟩
      · simp [hne]
      · exact List.forall_mem_append.mpr ⟨isDigit_zeros _, hdigits⟩

theorem isDecimal_text (x : Binary64) : IsDecimal (chars (numberLayout.text x)) := by
  obtain ⟨d, hd⟩ : ∃ d : Decimal,
      (if x.isZero then ⟨0, 0⟩ else Decimal.shortest numberLayout.tie x.magnitude) = d := ⟨_, rfl⟩
  obtain ⟨whole, fraction, htext, hne, hwhole, hfraction⟩ :=
    positional_eq (Nat.toDigits 10 d.digits) Nat.toDigits_ne_nil (isDigit_toDigits _)
      d.exponent
  have hall : numberLayout.text x
      = (if x.isNegative then ['-'] else []) ++ (whole ++ fraction) := by
    rw [← htext, Layout.text, hd]
    rfl
  refine ⟨chars (if x.isNegative then ['-'] else []), chars whole, chars fraction, ?_, ?_,
    chars_ne_nil hne, isDigit_of_mem_chars hwhole, ?_⟩
  · rw [hall, chars_append, chars_append]
  · split
    · exact Or.inr (by decide +kernel)
    · exact Or.inl (by decide +kernel)
  · rcases hfraction with rfl | ⟨rest, rfl, hrest, hdigits⟩
    · exact Or.inl (by decide +kernel)
    · refine Or.inr ⟨chars rest, ?_, chars_ne_nil hrest, isDigit_of_mem_chars hdigits⟩
      have hcons : '.' :: rest = ['.'] ++ rest := rfl
      have hdot : chars ['.'] = [Byte.dot] := by decide +kernel
      rw [hcons, chars_append, hdot]
      rfl

theorem chars_toString (n : Nat) : utf8 (toString n) = chars (Nat.toDigits 10 n) := by
  rw [Nat.toString_eq_ofList_toDigits, chars]

/-! ### Byte strings -/

theorem isHexDigit_hexDigit {n : UInt8} (h : n < 16) :
    Byte.isHexDigit (Byte.hexDigit n) = true := by
  grind [Byte.isHexDigit, Byte.isDigit, Byte.hexDigit]

theorem isHexDigit_of_mem_hexText {bytes : Bytes} :
    ∀ b ∈ hexText bytes, Byte.isHexDigit b = true := by
  intro b hb
  obtain ⟨c, -, hb⟩ := List.mem_flatMap.mp hb
  simp only [Byte.hex, List.mem_cons, List.not_mem_nil, or_false] at hb
  rcases hb with rfl | rfl <;>
  · apply isHexDigit_hexDigit
    grind

/-! ### Dates -/

/-- The characters of a date or a time that are no digits. -/
def calendarMarks : List Char := ['-', '+', ':', ' ', '.']

theorem isDigit_padded (width n : Nat) : ∀ c ∈ padded width n, c.isDigit = true := by
  unfold padded
  refine List.forall_mem_append.mpr ⟨?_, isDigit_toDigits n⟩
  intro c hc
  obtain rfl := List.eq_of_mem_replicate hc
  decide

theorem mem_padded (width n : Nat) : ∀ c ∈ padded width n, c.isDigit = true ∨ c ∈ calendarMarks :=
  fun c hc => Or.inl (isDigit_padded width n c hc)

theorem mem_mark {c : Char} (h : c ∈ calendarMarks) : c.isDigit = true ∨ c ∈ calendarMarks :=
  Or.inr h

theorem mem_dateText (d : Date) : ∀ c ∈ d.text, c.isDigit = true ∨ c ∈ calendarMarks := by
  have hyear : ∀ c ∈ Date.yearText d.year, c.isDigit = true ∨ c ∈ calendarMarks := by
    unfold Date.yearText
    split
    · exact mem_padded _ _
    · refine List.forall_mem_cons.mpr ⟨mem_mark ?_, mem_padded _ _⟩
      split <;> decide
  unfold Date.text
  simp only [List.forall_mem_append, List.forall_mem_cons]
  exact ⟨⟨hyear, mem_mark (by decide), mem_padded _ _⟩, mem_mark (by decide), mem_padded _ _⟩

theorem mem_dateTimeText (t : DateTime) : ∀ c ∈ t.text, c.isDigit = true ∨ c ∈ calendarMarks := by
  have hclock : ∀ c ∈ t.clockText, c.isDigit = true ∨ c ∈ calendarMarks := by
    unfold DateTime.clockText
    simp only [List.forall_mem_append, List.forall_mem_cons]
    exact ⟨⟨mem_padded _ _, mem_mark (by decide), mem_padded _ _⟩, mem_mark (by decide),
      mem_padded _ _⟩
  unfold DateTime.text
  split
  · simp only [List.forall_mem_append, List.forall_mem_cons]
    exact ⟨⟨mem_dateText _, mem_mark (by decide), hclock⟩, mem_mark (by decide), mem_padded _ _⟩
  split
  · simp only [List.forall_mem_append, List.forall_mem_cons]
    exact ⟨mem_dateText _, mem_mark (by decide), hclock⟩
  · exact mem_dateText _

/-! ### Literals between apostrophes -/

open Region

theorem inside_stringBody (s : Settings) (text : Bytes) :
    Inside s.reader .literal (stringBody s.noBackslashEscapes text) := by
  induction text with
  | nil => exact Inside.nil _
  | cons b rest ih =>
    unfold stringBody
    split
    · rename_i hdoubled
      have hpair : Inside s.reader .literal [b, b] := by
        simp only [isDoubled, Bool.or_eq_true, Bool.and_eq_true, beq_iff_eq] at hdoubled
        rcases hdoubled with rfl | ⟨rfl, hescapes⟩
        · exact inside_literal_apostrophes
        · exact inside_literal_escaped hescapes _
      exact hpair.append ih
    · rename_i hplain
      simp only [isDoubled, Bool.or_eq_true, Bool.and_eq_true, beq_iff_eq, not_or, not_and,
        Bool.not_eq_true, Bool.not_eq_false'] at hplain
      have hbyte : Inside s.reader .literal [b] := by
        apply inside_literal_byte hplain.1
        intro hb
        simpa [Settings.reader, Settings.usesBackslashEscapes] using hplain.2 hb
      exact hbyte.append ih

theorem reads_string (s : Settings) (text : Bytes) :
    Reads s.reader (string s.noBackslashEscapes text) [] :=
  reads_literal (inside_stringBody s text)

theorem reads_json (s : Settings) (j : Json) : Reads s.reader (json s.literalStyle j) [] :=
  reads_string s _

theorem toNat_lt_of_mem_calendarMarks : ∀ c ∈ calendarMarks, c.toNat < 128 :=
  List.forall_iff_forall_mem.mp (by decide)

theorem ne_of_mem_calendarMarks : ∀ c ∈ calendarMarks,
    c.toNat.toUInt8 ≠ Byte.apostrophe ∧ c.toNat.toUInt8 ≠ Byte.backslash :=
  List.forall_iff_forall_mem.mp (by decide)

theorem reads_dateText {rd : Reader} {text : List Char}
    (h : ∀ c ∈ text, c.isDigit = true ∨ c ∈ calendarMarks) : Reads rd (dateText text) [] := by
  refine reads_literal (inside_literal ?_)
  intro b hb
  rcases mem_chars _ toNat_lt_of_mem_calendarMarks h b hb with hdigit | ⟨c, hc, rfl⟩
  · constructor <;>
    · rintro rfl
      exact absurd hdigit (by decide)
  · exact ne_of_mem_calendarMarks c hc

end Literal

end SqlTemplate
