import SqlTemplate.Proofs.Fitting
import SqlTemplate.Proofs.Literals

/-!
# Bytes that are a text

Statements are edited as bytes and handed out as texts. `IsText` says that bytes encode a text, and
the one fact about UTF-8 behind everything here is `IsText.cut`: no byte of a longer character is
ASCII, so a text may be cut before and after an ASCII byte. Names, literals and fitted texts are put
together and taken apart at such bytes only. `Buffer.exists_toText` and `sanitize_map_utf8` are what
other modules use: bytes that encode a text are read back, and checking a text never fails for want
of one.
-/

namespace SqlTemplate

/-- Bytes that encode a text. -/
def IsText (bytes : Bytes) : Prop := ∃ text : String, utf8 text = bytes

theorem isText_utf8 (text : String) : IsText (utf8 text) := ⟨text, rfl⟩

theorem utf8_injective {x y : String} (h : utf8 x = utf8 y) : x = y := by
  apply String.toByteArray_inj.mp
  exact ByteArray.ext (Array.toList_inj.mp h)

theorem isText_iff {bytes : Bytes} :
    IsText bytes ↔ ∃ chars : List Char, bytes = chars.flatMap String.utf8EncodeChar := by
  constructor
  · rintro ⟨text, rfl⟩
    refine ⟨text.toList, ?_⟩
    rw [← Literal.chars_eq_flatMap, Literal.chars, String.ofList_toList]
  · rintro ⟨chars, rfl⟩
    exact ⟨String.ofList chars, Literal.chars_eq_flatMap chars⟩

namespace IsText

theorem nil : IsText [] := ⟨"", rfl⟩

theorem append {x y : Bytes} (hx : IsText x) (hy : IsText y) : IsText (x ++ y) := by
  obtain ⟨x, rfl⟩ := hx
  obtain ⟨y, rfl⟩ := hy
  exact ⟨x ++ y, utf8_append x y⟩

theorem singleton {b : UInt8} (h : b < 0x80) : IsText [b] := by
  have hlt : b.toNat < 128 := h
  have hchar : (Char.ofNat b.toNat).toNat = b.toNat := by
    rw [Char.ofNat, dif_pos (Or.inl (by omega))]
    rfl
  refine isText_iff.mpr ⟨[Char.ofNat b.toNat], ?_⟩
  rw [List.flatMap_singleton, Literal.utf8EncodeChar_of_toNat_lt (by omega), hchar,
    Nat.toUInt8, UInt8.ofNat_toNat]

theorem of_ascii {bytes : Bytes} (h : ∀ b ∈ bytes, b < 0x80) : IsText bytes := by
  induction bytes with
  | nil => exact nil
  | cons b rest ih =>
    obtain ⟨hb, hrest⟩ := List.forall_mem_cons.mp h
    exact (singleton hb).append (ih hrest)

theorem cons {b : UInt8} {rest : Bytes} (hb : b < 0x80) (hrest : IsText rest) :
    IsText (b :: rest) :=
  (singleton hb).append hrest

/-- Bytes between two quotes. -/
theorem enclosed {quote : UInt8} {body : Bytes} (hquote : quote < 0x80) (hbody : IsText body) :
    IsText (quote :: body ++ [quote]) :=
  (hbody.cons hquote).append (singleton hquote)

/-! ### Cutting a text -/

theorem utf8EncodeChar_cases (c : Char) :
    (∃ b, String.utf8EncodeChar c = [b] ∧ b < 0x80) ∨
      ∀ b ∈ String.utf8EncodeChar c, 0x80 ≤ b := by
  have hlarge (n k : Nat) (hk : 128 ≤ k) (h : n + k < 256) : 0x80 ≤ UInt8.ofNat (n + k) := by
    rw [UInt8.le_iff_toNat_le, UInt8.toNat_ofNat']
    have : (0x80 : UInt8).toNat = 128 := rfl
    omega
  unfold String.utf8EncodeChar
  dsimp only
  split
  · rename_i hone
    refine Or.inl ⟨_, rfl, ?_⟩
    rw [UInt8.lt_iff_toNat_lt, UInt8.toNat_ofNat']
    have : (0x80 : UInt8).toNat = 128 := rfl
    omega
  · right
    split
    · simp only [List.forall_mem_cons, List.not_mem_nil, false_implies, implies_true, and_true]
      exact ⟨hlarge _ _ (by omega) (by omega), hlarge _ _ (by omega) (by omega)⟩
    split
    · simp only [List.forall_mem_cons, List.not_mem_nil, false_implies, implies_true, and_true]
      exact ⟨hlarge _ _ (by omega) (by omega), hlarge _ _ (by omega) (by omega),
        hlarge _ _ (by omega) (by omega)⟩
    · simp only [List.forall_mem_cons, List.not_mem_nil, false_implies, implies_true, and_true]
      exact ⟨hlarge _ _ (by omega) (by omega), hlarge _ _ (by omega) (by omega),
        hlarge _ _ (by omega) (by omega), hlarge _ _ (by omega) (by omega)⟩

/-- A text may be cut before and after an ASCII byte. -/
theorem cut {x y : Bytes} {b : UInt8} (h : IsText (x ++ b :: y)) (hb : b < 0x80) :
    IsText x ∧ IsText y := by
  obtain ⟨chars, hchars⟩ := isText_iff.mp h
  clear h
  induction chars generalizing x with
  | nil => simp at hchars
  | cons c chars ih =>
    rw [List.flatMap_cons] at hchars
    rcases List.append_eq_append_iff.mp hchars with ⟨z, hc, hrest⟩ | ⟨z, rfl, hrest⟩
    · -- The byte belongs to the first character, unless `x` is all of that character.
      cases z with
      | nil =>
        rw [List.append_nil] at hc
        obtain ⟨-, hy⟩ := ih (x := []) hrest
        exact ⟨isText_iff.mpr ⟨[c], by rw [List.flatMap_singleton, hc]⟩, hy⟩
      | cons d z =>
        obtain ⟨rfl, hafter⟩ := List.cons.inj hrest
        rcases utf8EncodeChar_cases c with ⟨d, hd, -⟩ | hlarge
        · rw [hd, eq_comm, List.append_eq_singleton_iff] at hc
          rcases hc with ⟨rfl, hz⟩ | ⟨-, hz⟩
          · obtain ⟨-, rfl⟩ := List.cons.inj hz
            exact ⟨nil, isText_iff.mpr ⟨chars, hafter⟩⟩
          · cases hz
        · have hmem : b ∈ String.utf8EncodeChar c := hc ▸ List.mem_append_right _ List.mem_cons_self
          exact absurd (hlarge b hmem) (UInt8.not_le.mpr hb)
    · obtain ⟨hz, hy⟩ := ih hrest.symm
      refine ⟨append ?_ hz, hy⟩
      exact isText_iff.mpr ⟨[c], (List.flatMap_singleton _ _).symm⟩

/-- A text may be cut where its next byte is ASCII. -/
theorem split {x y : Bytes} (h : IsText (x ++ y)) (hhead : ∀ b, y.head? = some b → b < 0x80) :
    IsText x ∧ IsText y := by
  cases y with
  | nil => exact ⟨by rwa [List.append_nil] at h, nil⟩
  | cons b y =>
    have hb := hhead b rfl
    obtain ⟨hx, hy⟩ := h.cut hb
    exact ⟨hx, hy.cons hb⟩

theorem tail {b : UInt8} {y : Bytes} (h : IsText (b :: y)) (hb : b < 0x80) : IsText y :=
  (cut (x := []) h hb).2

/-- A text may be cut behind ASCII bytes. -/
theorem drop_ascii {x y : Bytes} (hx : ∀ b ∈ x, b < 0x80) (h : IsText (x ++ y)) : IsText y := by
  induction x with
  | nil => exact h
  | cons b x ih =>
    obtain ⟨hb, hx⟩ := List.forall_mem_cons.mp hx
    exact ih hx (tail h hb)

/-! ### Writing a byte twice -/

theorem doubled {quote : UInt8} (hquote : quote < 0x80) (before : Bytes) {text : Bytes}
    (h : IsText (before ++ text)) : IsText (before ++ doubled quote text) := by
  induction text generalizing before with
  | nil => exact h
  | cons b rest ih =>
    unfold SqlTemplate.doubled
    split
    · rename_i hb
      obtain ⟨hbefore, hrest⟩ := h.cut (hb ▸ hquote)
      have htwice : IsText [b, b] := (singleton (hb ▸ hquote)).cons (hb ▸ hquote)
      exact hbefore.append (htwice.append (ih [] hrest))
    · have hsplit : before ++ b :: rest = (before ++ [b]) ++ rest := by simp
      rw [hsplit] at h
      simpa using ih (before ++ [b]) h

theorem of_doubled {quote : UInt8} (hquote : quote < 0x80) (before : Bytes) {text : Bytes}
    (h : IsText (before ++ SqlTemplate.doubled quote text)) : IsText (before ++ text) := by
  induction text generalizing before with
  | nil => exact h
  | cons b rest ih =>
    unfold SqlTemplate.doubled at h
    split at h
    · rename_i hb
      have hascii : b < 0x80 := hb ▸ hquote
      obtain ⟨hbefore, hrest⟩ := h.cut hascii
      exact hbefore.append ((ih [] (tail hrest hascii)).cons hascii)
    · have hsplit : before ++ b :: SqlTemplate.doubled quote rest
          = (before ++ [b]) ++ SqlTemplate.doubled quote rest := by simp
      rw [hsplit] at h
      simpa using ih (before ++ [b]) h

theorem stringBody (noBackslashEscapes : Bool) (before : Bytes) {text : Bytes}
    (h : IsText (before ++ text)) :
    IsText (before ++ Literal.stringBody noBackslashEscapes text) := by
  induction text generalizing before with
  | nil => exact h
  | cons b rest ih =>
    unfold Literal.stringBody
    split
    · rename_i hdoubled
      have hb : b < 0x80 := by
        simp only [Literal.isDoubled, Bool.or_eq_true, Bool.and_eq_true, beq_iff_eq] at hdoubled
        rcases hdoubled with rfl | ⟨rfl, -⟩ <;> decide
      obtain ⟨hbefore, hrest⟩ := h.cut hb
      have htwice : IsText [b, b] := (singleton hb).cons hb
      exact hbefore.append (htwice.append (ih [] hrest))
    · have hsplit : before ++ b :: rest = (before ++ [b]) ++ rest := by simp
      rw [hsplit] at h
      simpa using ih (before ++ [b]) h

end IsText

/-! ### Reading a buffer as a text -/

theorem Buffer.exists_toText {b : Buffer} (h : IsText b.toList) :
    ∃ text, b.toText = .ok text ∧ utf8 text = b.toList := by
  obtain ⟨text, htext⟩ := h
  have hbytes : b.bytes = text.toByteArray := ByteArray.ext (Array.toList_inj.mp htext.symm)
  have hread : b.toText = .ok text := by
    unfold Buffer.toText String.fromUTF8?
    rw [hbytes, dif_pos text.isValidUTF8]
    rfl
  exact ⟨text, hread, htext⟩

/-! ### Names -/

theorem Settings.nameQuote_lt (s : Settings) : s.nameQuote < 0x80 := by
  unfold Settings.nameQuote
  cases s.family <;> decide

namespace Name

theorem isText_enclose {quote : UInt8} {segment : Bytes} (hquote : quote < 0x80)
    (h : IsText segment) : IsText (enclose quote segment) :=
  (IsText.doubled hquote [] h).enclosed hquote

theorem isText_writeSegment {quote : UInt8} {segment : Bytes} (hquote : quote < 0x80)
    (h : IsText segment) : IsText (writeSegment quote segment) := by
  unfold writeSegment
  split
  · exact h
  · exact isText_enclose hquote h

theorem isText_of_intercalate (separator : UInt8) (hseparator : separator < 0x80)
    {segments : List Bytes} (h : IsText ([separator].intercalate segments)) :
    ∀ segment ∈ segments, IsText segment := by
  induction segments with
  | nil => exact nofun
  | cons x rest ih =>
    cases rest with
    | nil => exact List.forall_mem_singleton.mpr (by simpa [List.intercalate] using h)
    | cons y rest =>
      rw [List.intercalate_cons_cons, List.append_assoc, List.singleton_append] at h
      obtain ⟨hx, hrest⟩ := h.cut hseparator
      exact List.forall_mem_cons.mpr ⟨hx, ih hrest⟩

theorem isText_intercalate {separator : Bytes} (hseparator : IsText separator)
    {segments : List Bytes} (h : ∀ segment ∈ segments, IsText segment) :
    IsText (separator.intercalate segments) := by
  induction segments with
  | nil => exact .nil
  | cons x rest ih =>
    obtain ⟨hx, hrest⟩ := List.forall_mem_cons.mp h
    cases rest with
    | nil => simpa [List.intercalate] using hx
    | cons y rest =>
      rw [List.intercalate_cons_cons]
      exact (hx.append hseparator).append (ih hrest)

theorem isText_segments (name : String) : ∀ segment ∈ segments (utf8 name), IsText segment := by
  apply isText_of_intercalate Byte.dot (by decide)
  rw [segments, List.intercalate_splitOn]
  exact isText_utf8 name

theorem isText_writeDotted {quote : UInt8} (hquote : quote < 0x80) (name : String) :
    IsText (writeDotted quote name) := by
  apply isText_intercalate (.singleton (by decide))
  intro segment hsegment
  obtain ⟨part, hpart, rfl⟩ := List.mem_map.mp hsegment
  exact isText_writeSegment hquote (isText_segments name part hpart)

theorem isText_lead {quote : UInt8} (hquote : quote < 0x80) (qualifier : Option String) :
    IsText (lead quote qualifier) := by
  unfold lead
  split
  · exact .nil
  · split
    · exact .nil
    · exact (isText_writeDotted hquote _).append (.singleton (by decide))

theorem isText_write {quote : UInt8} (hquote : quote < 0x80) (qualifier : Option String)
    (name : String) : IsText (write quote qualifier name) :=
  (isText_lead hquote qualifier).append (isText_writeDotted hquote name)

end Name

/-! ### Literals -/

namespace Literal

theorem lt_of_isHexDigit {b : UInt8} (h : Byte.isHexDigit b = true) : b < 0x80 := by
  grind [Byte.isHexDigit, Byte.isDigit]

theorem isText_hexText (bytes : Bytes) : IsText (hexText bytes) :=
  .of_ascii fun b hb => lt_of_isHexDigit (isHexDigit_of_mem_hexText b hb)

theorem isText_string (noBackslashEscapes : Bool) {text : Bytes} (h : IsText text) :
    IsText (string noBackslashEscapes text) :=
  (IsText.stringBody noBackslashEscapes [] h).enclosed (by decide)

theorem isText_byteString (isMssql : Bool) (bytes : Bytes) :
    IsText (byteString isMssql bytes) := by
  unfold byteString
  split
  · exact (isText_utf8 _).append (isText_hexText bytes)
  · exact ((isText_utf8 _).append (isText_hexText bytes)).append (.singleton (by decide))

theorem isText_chars (text : List Char) : IsText (chars text) := isText_utf8 _

theorem isText_scalar {style : LiteralStyle} {value : Value} {bytes : Bytes}
    (h : scalar style value = .ok bytes) : IsText bytes := by
  unfold scalar at h
  split at h
  case h_4 | h_5 =>
    obtain ⟨n, -, hok⟩ := bind_eq_ok h
    cases hok
    exact isText_chars _
  case h_6 =>
    split at h
    · cases h
      exact isText_chars _
    · cases h
  case h_7 =>
    cases h
    exact isText_string _ (isText_utf8 _)
  case h_8 =>
    cases h
    exact isText_byteString _ _
  case h_9 | h_10 =>
    cases h
    exact (isText_chars _).enclosed (by decide)
  case h_11 =>
    cases h
    exact isText_string _ (isText_chars _)
  case h_12 => cases h
  all_goals
    cases h
    exact isText_utf8 _

end Literal

/-! ### Fitted texts -/

namespace Lexeme

theorem lt_of_isDigit {b : UInt8} (h : Byte.isDigit b = true) : b < 0x80 := by
  grind [Byte.isDigit]

theorem lt_of_isSpace {b : UInt8} (h : Byte.isSpace b = true) : b < 0x80 := by
  grind [Byte.isSpace]

theorem lt_of_not_isWordStart {b : UInt8} (h : Byte.isWordStart b = false) : b < 0x80 := by
  simp only [Byte.isWordStart, Bool.or_eq_false_iff, decide_eq_false_iff_not] at h
  exact UInt8.not_le.mp h.2

theorem lt_of_not_isWord {b : UInt8} (h : Byte.isWord b = false) : b < 0x80 := by
  rw [Byte.isWord, Bool.or_eq_false_iff] at h
  exact lt_of_not_isWordStart h.1

theorem IsNumber.lt {text : Bytes} (h : IsNumber text) : ∀ b ∈ text, b < 0x80 := by
  rcases h with ⟨letter, digits, rfl, hletter, hdigits⟩ |
    ⟨whole, fraction, exponent, rfl, -, hwhole, hfraction, hexponent⟩
  · refine List.forall_mem_cons.mpr ⟨by decide, List.forall_mem_cons.mpr ⟨?_, fun b hb =>
      Literal.lt_of_isHexDigit (hdigits b hb)⟩⟩
    rcases hletter with rfl | rfl <;> decide
  · refine List.forall_mem_append.mpr ⟨fun b hb => lt_of_isDigit (hwhole b hb),
      List.forall_mem_append.mpr ⟨?_, ?_⟩⟩
    · rcases hfraction with rfl | ⟨digits, rfl, hdigits⟩
      · exact nofun
      · exact List.forall_mem_cons.mpr ⟨by decide, fun b hb => lt_of_isDigit (hdigits b hb)⟩
    · rcases hexponent with rfl | ⟨letter, sign, digits, rfl, hletter, hsign, -, hdigits⟩
      · exact nofun
      · refine List.forall_mem_cons.mpr ⟨?_, List.forall_mem_append.mpr ⟨?_, fun b hb =>
          lt_of_isDigit (hdigits b hb)⟩⟩
        · rcases hletter with rfl | rfl <;> decide
        · rcases hsign with rfl | rfl | rfl
          · exact List.forall_mem_nil _
          · exact List.forall_mem_singleton.mpr (by decide)
          · exact List.forall_mem_singleton.mpr (by decide)

theorem IsPlaceholder.lt {text : Bytes} (h : IsPlaceholder text) : ∀ b ∈ text, b < 0x80 := by
  rcases h with rfl | ⟨sign, digits, rfl, hsign, -, hdigits⟩
  · exact List.forall_mem_singleton.mpr (by decide)
  · refine List.forall_mem_append.mpr ⟨?_, fun b hb => lt_of_isDigit (hdigits b hb)⟩
    rcases hsign with rfl | rfl | rfl
    · exact List.forall_mem_singleton.mpr (by decide)
    · exact List.forall_mem_cons.mpr ⟨by decide, List.forall_mem_singleton.mpr (by decide)⟩
    · exact List.forall_mem_cons.mpr ⟨by decide, List.forall_mem_singleton.mpr (by decide)⟩

/-- A text may be cut where a lexeme ends. -/
theorem isText_source_append {escapes : Bool} {mode : SafeMode} {l : Lexeme} {following : Bytes}
    (hproper : l.Proper escapes mode) (hleaves : l.Leaves following)
    (h : IsText (l.source ++ following)) : IsText l.source ∧ IsText following := by
  have hascii (hlt : ∀ b ∈ l.source, b < 0x80) : IsText l.source ∧ IsText following :=
    ⟨.of_ascii hlt, h.drop_ascii hlt⟩
  have hclosed (quote : UInt8) {body : Bytes} (hquote : quote < 0x80)
      (hsource : l.source = body ++ [quote]) : IsText l.source ∧ IsText following := by
    rw [hsource, List.append_assoc, List.singleton_append] at h
    obtain ⟨hbody, hfollowing⟩ := h.cut hquote
    exact ⟨hsource ▸ hbody.append (.singleton hquote), hfollowing⟩
  cases l with
  | space run =>
    exact hascii fun b hb => lt_of_isSpace (hproper.2 b hb)
  | word name => exact h.split fun b hb => lt_of_not_isWord (hleaves b hb).1
  | national letter =>
    refine hascii (List.forall_mem_singleton.mpr ?_)
    rcases hproper with rfl | rfl <;> decide
  | string parts => exact hclosed Byte.apostrophe (by decide) rfl
  | quotedName quote name =>
    refine hclosed quote ?_ rfl
    rcases hproper.1 with rfl | rfl <;> decide
  | hexString letter digits => exact hclosed Byte.apostrophe (by decide) rfl
  | bitString letter digits => exact hclosed Byte.apostrophe (by decide) rfl
  | number text => exact hascii (IsNumber.lt hproper)
  | placeholder text => exact hascii (isPlaceholder_of_proper hproper).lt
  | mark b => exact hascii (List.forall_mem_singleton.mpr (lt_of_not_isWordStart hproper.2.1))

theorem isText_fitted_parts {parts : List StringPart} (before : Bytes) {after : Bytes}
    (h : IsText (before ++ (parts.flatMap StringPart.source ++ after))) :
    IsText (before ++ (parts.flatMap StringPart.fitted ++ after)) := by
  induction parts generalizing before with
  | nil => exact h
  | cons part rest ih =>
    rw [List.flatMap_cons, List.append_assoc] at h ⊢
    unfold StringPart.fitted
    split
    · rename_i hpart
      rw [hpart] at h
      obtain ⟨hbefore, hrest⟩ := h.cut (by decide : Byte.backslash < 0x80)
      have hafter : IsText ([] ++ (rest.flatMap StringPart.source ++ after)) :=
        hrest.tail (by decide)
      have htwice : IsText [Byte.apostrophe, Byte.apostrophe] :=
        (IsText.singleton (by decide)).cons (by decide)
      exact hbefore.append (htwice.append (ih [] hafter))
    · rw [← List.append_assoc] at h ⊢
      exact ih (before ++ part.source) h

theorem WordForm.isText_text (form : WordForm) {quote : UInt8} {lead name : Bytes}
    (hquote : quote < 0x80) (hlead : IsText lead) (hname : IsText name) :
    IsText (form.text quote lead name) := by
  cases form with
  | bare | called => exact hname
  | quoted => exact hname.enclosed hquote
  | qualified => exact (hlead.append (hname.cons hquote)).append (.singleton hquote)

theorem isText_fitted {escapes : Bool} {mode : SafeMode} (s : Settings) {lead : Bytes}
    (hlead : IsText lead) (afterAs afterDot : Bool) (following : List Lexeme) {l : Lexeme}
    (hproper : l.Proper escapes mode) (h : IsText l.source) :
    IsText (l.fitted s lead afterAs afterDot following) := by
  cases l with
  | word name => exact WordForm.isText_text _ s.nameQuote_lt hlead h
  | string parts => exact isText_fitted_parts [Byte.apostrophe] h
  | quotedName quote name =>
    have hquote : quote < 0x80 := by
      rcases hproper.1 with rfl | rfl <;> decide
    have hbody := (h.cut (x := quote :: doubled quote name) (y := []) hquote).1.tail hquote
    exact Name.isText_enclose s.nameQuote_lt (IsText.of_doubled hquote [] hbody)
  | hexString letter digits =>
    rw [fitted]
    split
    · refine (isText_utf8 _).append (.of_ascii fun b hb => ?_)
      exact Literal.lt_of_isHexDigit (hproper.2.1 b hb)
    · exact h
  | _ => exact h

theorem isText_fittedFrom {escapes : Bool} {mode : SafeMode} (s : Settings) {lead : Bytes}
    (hlead : IsText lead) (afterAs afterDot closing : Bool) {depth : Nat} {lexemes : List Lexeme}
    (haccepted : Accepted escapes mode depth lexemes) (h : IsText (sources lexemes)) :
    IsText (fittedFrom s lead afterAs afterDot closing lexemes) := by
  induction haccepted generalizing afterAs afterDot closing with
  | nil => exact .nil
  | cons hproper hleaves _ _ ih =>
    obtain ⟨hsource, hrest⟩ := isText_source_append hproper hleaves h
    unfold fittedFrom
    refine IsText.append ?_ (ih _ _ _ hrest)
    split
    · exact .nil
    · exact isText_fitted s hlead _ _ _ hproper hsource

end Lexeme

theorem isText_fitText {qualifier : Option String} {s : Settings} {mode : SafeMode}
    {text out : Bytes} (htext : IsText text) (h : fitText qualifier s mode text = .ok out) :
    IsText out := by
  obtain ⟨lexemes, haccepted, rfl, rfl⟩ := fitText_ok h
  exact Lexeme.isText_fittedFrom s (Name.isText_lead s.nameQuote_lt qualifier) _ _ _ haccepted
    htext

/-- Checking and fitting a text is checking and fitting its bytes. -/
theorem sanitize_map_utf8 (text : String) (qualifier : Option String) (s : Settings)
    (mode : SafeMode) :
    (sanitize text qualifier s mode).map utf8 = fitText qualifier s mode (utf8 text) := by
  have hspec := Buffer.sanitize_eq (b := Buffer.ofText text) (Nat.zero_le _) qualifier s mode
  rw [show (Buffer.ofText text).tail 0 = utf8 text from rfl] at hspec
  unfold sanitize
  cases hfit : fitText qualifier s mode (utf8 text) with
  | error e =>
    rw [hfit] at hspec
    rw [hspec]
    rfl
  | ok bytes =>
    rw [hfit] at hspec
    obtain ⟨fitted, hfitted, hbytes⟩ := hspec
    have hout : IsText fitted.toList := hbytes ▸ isText_fitText (isText_utf8 text) hfit
    obtain ⟨out, hread, hutf8⟩ := Buffer.exists_toText hout
    rw [hfitted]
    change (fitted.toText).map utf8 = _
    rw [hread, Except.map, hutf8, hbytes]
    rfl

theorem sanitize_eq_ok_iff {text out : String} {qualifier : Option String} {s : Settings}
    {mode : SafeMode} :
    sanitize text qualifier s mode = .ok out ↔
      fitText qualifier s mode (utf8 text) = .ok (utf8 out) := by
  rw [← sanitize_map_utf8]
  cases hresult : sanitize text qualifier s mode with
  | error e => exact ⟨nofun, nofun⟩
  | ok result =>
    simp only [Except.map, Except.ok.injEq]
    exact ⟨congrArg utf8, utf8_injective⟩

theorem sanitize_eq_error_iff {text : String} {qualifier : Option String} {s : Settings}
    {mode : SafeMode} {e : Error} :
    sanitize text qualifier s mode = .error e ↔
      fitText qualifier s mode (utf8 text) = .error e := by
  rw [← sanitize_map_utf8]
  cases sanitize text qualifier s mode <;> simp [Except.map]

end SqlTemplate
