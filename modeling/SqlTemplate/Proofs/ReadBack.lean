import SqlTemplate.Proofs.Characters
import SqlTemplate.Render

/-!
# What the server reads in a literal

A reader of string literals and a reader of byte string literals, written down from the rules of the
server and not from the way literals are printed. Each takes a text that starts with a literal and
returns what the literal stands for and the text after it. `Value.readBack_quote` says that they get
back every string and every byte string from its literal, and that whatever comes after it stays out
of the literal.
-/

namespace SqlTemplate

namespace Server

/-- The content of a string literal behind its opening apostrophe, and the text after the literal.
Of the pairs that start with a backslash only those for a backslash and an apostrophe are read. -/
def stringContent (escapes : Bool) : Bytes → Option (Bytes × Bytes)
  | [] => none
  | b :: rest =>
    if b = Byte.apostrophe then
      match rest with
      | c :: after =>
        if c = Byte.apostrophe then
          (stringContent escapes after).map fun (content, rest) => (c :: content, rest)
        else some ([], rest)
      | [] => some ([], [])
    else if b = Byte.backslash && escapes then
      match rest with
      | c :: after =>
        if c = Byte.backslash ∨ c = Byte.apostrophe then
          (stringContent escapes after).map fun (content, rest) => (c :: content, rest)
        else none
      | [] => none
    else (stringContent escapes rest).map fun (content, rest) => (b :: content, rest)

/-- The string at the front of a text. -/
def stringLiteral (escapes : Bool) : Bytes → Option (Bytes × Bytes)
  | [] => none
  | b :: rest => if b = Byte.apostrophe then stringContent escapes rest else none

def digitValue (b : UInt8) : Option UInt8 :=
  if 0x30 ≤ b ∧ b ≤ 0x39 then some (b - 0x30)
  else if 0x61 ≤ b ∧ b ≤ 0x66 then some (b - 0x57)
  else if 0x41 ≤ b ∧ b ≤ 0x46 then some (b - 0x37)
  else none

/-- The bytes that pairs of hexadecimal digits stand for. -/
def fromHex : Bytes → Option Bytes
  | [] => some []
  | [_] => none
  | high :: low :: rest => do
    return (16 * (← digitValue high) + (← digitValue low)) :: (← fromHex rest)

/-- The byte string at the front of a text: all digits behind `0x`, or those from `x'` on up to the
next apostrophe. -/
def byteLiteral (isMssql : Bool) (text : Bytes) : Option (Bytes × Bytes) :=
  if isMssql then
    match text with
    | zero :: x :: rest =>
      if zero = 0x30 ∧ x = 0x78 then
        (fromHex (rest.takeWhile Byte.isHexDigit)).map (·, rest.dropWhile Byte.isHexDigit)
      else none
    | _ => none
  else
    match text with
    | x :: quote :: rest =>
      if x = 0x78 ∧ quote = Byte.apostrophe then
        (fromHex (rest.takeWhile (· != Byte.apostrophe))).bind fun bytes =>
          match rest.dropWhile (· != Byte.apostrophe) with
          | _ :: rest => some (bytes, rest)
          | [] => none
      else none
    | _ => none

/-! ### Strings -/

theorem stringContent_stringBody (noBackslashEscapes : Bool) (text : Bytes) {rest : Bytes}
    (hrest : rest.head? ≠ some Byte.apostrophe) :
    stringContent (!noBackslashEscapes)
        (Literal.stringBody noBackslashEscapes text ++ Byte.apostrophe :: rest)
      = some (text, rest) := by
  induction text with
  | nil =>
    cases rest with
    | nil => rfl
    | cons c rest =>
      have hc : c ≠ Byte.apostrophe := by simpa using hrest
      simp [Literal.stringBody, stringContent, hc]
  | cons b text ih =>
    unfold Literal.stringBody
    split
    · rename_i hdoubled
      rw [List.cons_append, List.cons_append, stringContent]
      simp only [Literal.isDoubled, Bool.or_eq_true, Bool.and_eq_true, beq_iff_eq] at hdoubled
      rcases hdoubled with rfl | ⟨rfl, hescapes⟩
      · rw [if_pos rfl]
        dsimp only
        rw [if_pos rfl, ih]
        rfl
      · rw [if_neg (by decide), if_pos (by simpa using hescapes)]
        dsimp only
        rw [if_pos (Or.inl rfl), ih]
        rfl
    · rename_i hplain
      simp only [Literal.isDoubled, Bool.or_eq_true, Bool.and_eq_true, beq_iff_eq, not_or] at hplain
      rw [List.cons_append]
      unfold stringContent
      rw [if_neg hplain.1, if_neg (by simpa using hplain.2), ih]
      rfl

theorem stringLiteral_string (noBackslashEscapes : Bool) (text : Bytes) {rest : Bytes}
    (hrest : rest.head? ≠ some Byte.apostrophe) :
    stringLiteral (!noBackslashEscapes) (Literal.string noBackslashEscapes text ++ rest)
      = some (text, rest) := by
  have hliteral : Literal.string noBackslashEscapes text ++ rest
      = Byte.apostrophe ::
          (Literal.stringBody noBackslashEscapes text ++ Byte.apostrophe :: rest) := by
    simp [Literal.string]
  rw [hliteral, stringLiteral, if_pos rfl]
  exact stringContent_stringBody noBackslashEscapes text hrest

/-! ### Byte strings -/

theorem digitValue_hexDigit {n : UInt8} (h : n < 16) : digitValue (Byte.hexDigit n) = some n := by
  grind [digitValue, Byte.hexDigit]

theorem fromHex_hexText (bytes : Bytes) : fromHex (hexText bytes) = some bytes := by
  induction bytes with
  | nil => rfl
  | cons b rest ih =>
    have hhigh : digitValue (Byte.hexDigit (b / 16)) = some (b / 16) :=
      digitValue_hexDigit (by grind)
    have hlow : digitValue (Byte.hexDigit (b % 16)) = some (b % 16) :=
      digitValue_hexDigit (by grind)
    have hbyte : 16 * (b / 16) + b % 16 = b := by grind
    have htext : hexText (b :: rest)
        = Byte.hexDigit (b / 16) :: Byte.hexDigit (b % 16) :: hexText rest := rfl
    rw [htext, fromHex, hhigh, hlow, ih]
    exact congrArg (fun c => some (c :: rest)) hbyte

theorem byteLiteral_byteString (isMssql : Bool) (bytes : Bytes) {rest : Bytes}
    (hrest : isMssql = true → ∀ b, rest.head? = some b → Byte.isHexDigit b = false) :
    byteLiteral isMssql (Literal.byteString isMssql bytes ++ rest) = some (bytes, rest) := by
  cases isMssql with
  | true =>
    have hliteral : Literal.byteString true bytes ++ rest
        = 0x30 :: 0x78 :: (hexText bytes ++ rest) := rfl
    obtain ⟨htake, hdrop⟩ :=
      Lexeme.takeWhile_append_stop (x := hexText bytes) Literal.isHexDigit_of_mem_hexText
        (hrest rfl)
    rw [hliteral, byteLiteral, if_pos rfl, if_pos ⟨rfl, rfl⟩, htake, hdrop, fromHex_hexText]
    rfl
  | false =>
    have hliteral : Literal.byteString false bytes ++ rest
        = 0x78 :: 0x27 :: (hexText bytes ++ Byte.apostrophe :: rest) := by
      have hprefix : utf8 "x'" = [0x78, 0x27] := by decide +kernel
      simp [Literal.byteString, hprefix]
    have hdigits : ∀ b ∈ hexText bytes, (b != Byte.apostrophe) = true := by
      intro b hb
      rw [bne_iff_ne]
      rintro rfl
      exact absurd (Literal.isHexDigit_of_mem_hexText _ hb) (by decide)
    obtain ⟨htake, hdrop⟩ :=
      Lexeme.takeWhile_append_stop hdigits (by simp) (y := Byte.apostrophe :: rest)
    rw [hliteral, byteLiteral, if_neg (by decide), if_pos ⟨rfl, rfl⟩, htake, hdrop, fromHex_hexText]
    rfl

end Server

/-! ### Literals of values -/

theorem Value.quote_eq (style : LiteralStyle) {v : Value} (hfragment : ∀ f, v ≠ .fragment f) :
    v.quote style = (do (Buffer.empty.append (← v.literal style)).toText) := by
  cases v with
  | fragment f => exact absurd rfl (hfragment f)
  | _ => rfl

theorem Value.isText_literal {style : LiteralStyle} {v : Value} {bytes : Bytes}
    (h : v.literal style = .ok bytes) : IsText bytes := by
  unfold literal at h
  split at h
  case h_3 => exact Literal.isText_scalar h
  all_goals
    obtain ⟨json, -, hok⟩ := bind_eq_ok h
    cases hok
    exact Literal.isText_string _ (Literal.isText_chars _)

/-- A literal is what quoting a value gives. -/
theorem Value.exists_quote {style : LiteralStyle} {v : Value} {bytes : Bytes}
    (hfragment : ∀ f, v ≠ .fragment f) (h : v.literal style = .ok bytes) :
    ∃ out, v.quote style = .ok out ∧ utf8 out = bytes := by
  have htext : IsText (Buffer.empty.append bytes).toList := by
    rw [Buffer.toList_append]
    exact isText_literal h
  obtain ⟨out, hout, hbytes⟩ := Buffer.exists_toText htext
  refine ⟨out, ?_, hbytes.trans (Buffer.toList_append _ _)⟩
  rw [quote_eq style hfragment, h]
  exact hout

theorem Value.literal_of_quote {style : LiteralStyle} {v : Value} {text : String}
    (hfragment : ∀ f, v ≠ .fragment f) (h : Value.quote style v = .ok text) :
    v.literal style = .ok (utf8 text) := by
  rw [Value.quote_eq style hfragment] at h
  obtain ⟨bytes, hliteral, htext⟩ := bind_eq_ok h
  rw [hliteral, Buffer.utf8_of_toText htext, Buffer.toList_append]
  rfl

theorem Value.quote_of_literal_error {style : LiteralStyle} {v : Value} {e : Error}
    (hfragment : ∀ f, v ≠ .fragment f) (h : v.literal style = .error e) :
    v.quote style = .error e := by
  rw [quote_eq style hfragment, h]
  rfl

theorem Value.quote_str (style : LiteralStyle) (text : String) :
    ∃ out, Value.quote style (.str text) = .ok out ∧
      utf8 out = Literal.string style.noBackslashEscapes (utf8 text) := by
  have hliteral : Value.literal style (.str text)
      = .ok (Literal.string style.noBackslashEscapes (utf8 text)) := rfl
  exact exists_quote (by simp) hliteral

theorem Value.quote_bytes (style : LiteralStyle) (bytes : Bytes) :
    ∃ out, Value.quote style (.bytes bytes) = .ok out ∧
      utf8 out = Literal.byteString style.isMssql bytes := by
  have hliteral : Value.literal style (.bytes bytes)
      = .ok (Literal.byteString style.isMssql bytes) := rfl
  exact exists_quote (by simp) hliteral

/-- Every string and every byte string has a literal, and the server reads it back from there and
goes on with the text after the literal. That text must not continue the literal: no apostrophe may
follow a string, no hexadecimal digit a byte string that is written as a number. -/
theorem Value.readBack_quote (style : LiteralStyle) (rest : Bytes) :
    (∀ text : String, rest.head? ≠ some Byte.apostrophe →
      ∃ out, Value.quote style (.str text) = .ok out ∧
        Server.stringLiteral (!style.noBackslashEscapes) (utf8 out ++ rest)
          = some (utf8 text, rest)) ∧
    ∀ bytes : Bytes,
      (style.isMssql = true → ∀ b, rest.head? = some b → Byte.isHexDigit b = false) →
      ∃ out, Value.quote style (.bytes bytes) = .ok out ∧
        Server.byteLiteral style.isMssql (utf8 out ++ rest) = some (bytes, rest) := by
  constructor
  · intro text hrest
    obtain ⟨out, hout, hbytes⟩ := Value.quote_str style text
    exact ⟨out, hout, hbytes ▸ Server.stringLiteral_string _ _ hrest⟩
  · intro bytes hrest
    obtain ⟨out, hout, hbytes⟩ := Value.quote_bytes style bytes
    exact ⟨out, hout, hbytes ▸ Server.byteLiteral_byteString _ _ hrest⟩

theorem Value.readBack_quote_backslash :
    (∃ out, Value.quote ⟨false, true⟩ (.str "\\'") = .ok out ∧
      Server.stringLiteral true (utf8 out ++ utf8 " OR 1")
        = some (utf8 "\\'", utf8 " OR 1")) ∧
    ∃ out, Value.quote ⟨false, true⟩ (.bytes [0x00, 0xFF]) = .ok out ∧
      Server.byteLiteral true (utf8 out ++ utf8 " OR 1") = some ([0x00, 0xFF], utf8 " OR 1") :=
  have hreadBack := Value.readBack_quote ⟨false, true⟩ (utf8 " OR 1")
  ⟨hreadBack.1 "\\'" (by decide +kernel),
    hreadBack.2 [0x00, 0xFF] fun _ b hb => by
      obtain rfl : 0x20 = b := Option.some.inj hb
      decide⟩

end SqlTemplate
