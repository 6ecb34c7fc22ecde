import SqlTemplate.Error

/-!
# Lexemes of a safe text

A text that may come from anyone is cut into lexemes from left to right and refused at the first
place where it could start another statement, a comment, or a literal that another reader would end
elsewhere. What is refused depends on the mode and on backslash escapes alone. The lexemes keep
every byte: their sources, joined, are the text.
-/

namespace SqlTemplate

/-- Where a safe text stands: alone in parentheses, as a part of a statement, or inside text that
was rendered before. -/
inductive SafeMode where
  | expression
  | chunk
  | nested
deriving DecidableEq, Repr

/-- One step of the content of a string literal. -/
inductive StringPart where
  | plain (b : UInt8)
  /-- An apostrophe written twice. -/
  | pair
  /-- A byte after a backslash. -/
  | escaped (b : UInt8)
deriving DecidableEq, Repr

inductive Lexeme where
  | space (run : Bytes)
  | word (name : Bytes)
  /-- The letter directly before a string literal that marks national characters. -/
  | national (letter : UInt8)
  | string (parts : List StringPart)
  | quotedName (quote : UInt8) (name : Bytes)
  | hexString (letter : UInt8) (digits : Bytes)
  | bitString (letter : UInt8) (digits : Bytes)
  | number (text : Bytes)
  | placeholder (text : Bytes)
  | mark (b : UInt8)
deriving DecidableEq, Repr

def StringPart.source : StringPart → Bytes
  | .plain b => [b]
  | .pair => [Byte.apostrophe, Byte.apostrophe]
  | .escaped b => [Byte.backslash, b]

/-- The bytes of the text that a lexeme was read from. -/
def Lexeme.source : Lexeme → Bytes
  | .space run => run
  | .word name => name
  | .national letter => [letter]
  | .string parts => Byte.apostrophe :: parts.flatMap StringPart.source ++ [Byte.apostrophe]
  | .quotedName quote name => quote :: doubled quote name ++ [quote]
  | .hexString letter digits | .bitString letter digits =>
    letter :: Byte.apostrophe :: digits ++ [Byte.apostrophe]
  | .number text => text
  | .placeholder text => text
  | .mark b => [b]

namespace Lexeme

/-! ### Reading one lexeme

Each reader takes what follows the byte that opens the lexeme and returns the rest of the text. -/

/-- The content of a string literal up to its closing apostrophe. -/
def readString (escapes : Bool) : Bytes → Except Rejection (List StringPart × Bytes)
  | [] => .error .unterminatedString
  | b :: rest =>
    if b = Byte.nul then .error .nulInString
    else if b = Byte.apostrophe then
      match rest with
      | c :: rest =>
        if c = Byte.apostrophe then do
          let (parts, rest) ← readString escapes rest
          return (.pair :: parts, rest)
        else .ok ([], c :: rest)
      | [] => .ok ([], [])
    else if b = Byte.backslash && escapes then
      match rest with
      | [] => .error .unterminatedString
      | c :: rest =>
        if c = Byte.nul then .error .nulInString
        else do
          let (parts, rest) ← readString escapes rest
          return (.escaped c :: parts, rest)
    else do
      let (parts, rest) ← readString escapes rest
      return (.plain b :: parts, rest)

/-- The name between quotes, up to the closing quote. -/
def readQuotedName (quote : UInt8) : Bytes → Except Rejection (Bytes × Bytes)
  | [] => .error .unterminatedName
  | b :: rest =>
    if b = Byte.nul then .error .nulInName
    else if b = quote then
      match rest with
      | c :: rest =>
        if c = quote then do
          let (name, rest) ← readQuotedName quote rest
          return (quote :: name, rest)
        else .ok ([], c :: rest)
      | [] => .ok ([], [])
    else do
      let (name, rest) ← readQuotedName quote rest
      return (b :: name, rest)

/-- The digits of a hexadecimal literal, an even number of them, and its closing apostrophe. -/
def readHexString (text : Bytes) : Except Rejection (Bytes × Bytes) :=
  let digits := text.takeWhile Byte.isHexDigit
  match text.dropWhile Byte.isHexDigit with
  | b :: rest =>
    if b = Byte.apostrophe ∧ digits.length % 2 = 0 then .ok (digits, rest)
    else .error .malformedHex
  | [] => .error .malformedHex

def isBit (b : UInt8) : Bool := b == 0x30 || b == 0x31

def readBitString (text : Bytes) : Except Rejection (Bytes × Bytes) :=
  match text.dropWhile isBit with
  | b :: rest =>
    if b = Byte.apostrophe then .ok (text.takeWhile isBit, rest) else .error .malformedBits
  | [] => .error .malformedBits

/-- How many bytes at the front of a text satisfy `p`. -/
def run (p : UInt8 → Bool) (text : Bytes) : Nat := (text.takeWhile p).length

/-- How many bytes the exponent at the front of a text takes, if there is one. -/
def exponentLength : Bytes → Nat
  | b :: rest =>
    if b = 0x65 ∨ b = 0x45 then
      match rest with
      | c :: rest' =>
        if c = Byte.plus ∨ c = Byte.minus then
          if run Byte.isDigit rest' = 0 then 0 else 2 + run Byte.isDigit rest'
        else if run Byte.isDigit rest = 0 then 0 else 1 + run Byte.isDigit rest
      | [] => 0
    else 0
  | [] => 0

/-- How many bytes the fraction at the front of a text takes, if there is one. -/
def fractionLength : Bytes → Nat
  | b :: rest => if b = Byte.dot then 1 + run Byte.isDigit rest else 0
  | [] => 0

/-- How many bytes the number at the front of a text takes. -/
def numberLength (text : Bytes) : Nat :=
  match text with
  | a :: x :: rest =>
    if a = Byte.zero ∧ (x = 0x78 ∨ x = 0x58) then 2 + run Byte.isHexDigit rest
    else
      let whole := run Byte.isDigit text
      let fraction := fractionLength (text.drop whole)
      whole + fraction + exponentLength (text.drop (whole + fraction))
  | _ => run Byte.isDigit text

def startsWord : Bytes → Bool
  | b :: _ => Byte.isWord b
  | [] => false

/-- A number, which no word may follow directly. -/
def readNumber (text : Bytes) : Except Rejection (Lexeme × Bytes) :=
  let length := numberLength text
  if startsWord (text.drop length) then .error .malformedNumber
  else .ok (.number (text.take length), text.drop length)

/-- What a word is: a letter glued to a string literal changes how the literal is read. -/
def readWord (name rest : Bytes) : Except Rejection (Lexeme × Bytes) :=
  match rest with
  | b :: after =>
    if b = Byte.apostrophe then
      match name with
      | [letter] =>
        if letter = 0x78 ∨ letter = 0x58 then do
          let (digits, rest) ← readHexString after
          return (.hexString letter digits, rest)
        else if letter = 0x6E ∨ letter = 0x4E then .ok (.national letter, rest)
        else if letter = 0x62 ∨ letter = 0x42 then do
          let (digits, rest) ← readBitString after
          return (.bitString letter digits, rest)
        else .error .stringPrefix
      | _ => .error .stringPrefix
    else if (name = [0x75] ∨ name = [0x55]) ∧ b = Byte.ampersand ∧
        (after.head? = some Byte.apostrophe ∨ after.head? = some Byte.doubleQuote) then
      .error .unicodeEscape
    else .ok (.word name, rest)
  | [] => .ok (.word name, [])

/-- How many bytes the bind placeholder at the front of a text takes, zero if there is none. -/
def placeholderLength : Bytes → Nat
  | b :: rest =>
    if b = Byte.question then 1
    else if b = Byte.dollar then
      if run Byte.isDigit rest = 0 then 0 else 1 + run Byte.isDigit rest
    else if b = Byte.commercialAt then
      match rest with
      | p :: rest =>
        if (p = 0x70 ∨ p = 0x50) ∧ run Byte.isDigit rest ≠ 0 then 2 + run Byte.isDigit rest else 0
      | [] => 0
    else 0
  | [] => 0

/-- Characters that no safe text has outside quotes. -/
def isForbidden (b : UInt8) : Bool :=
  b == Byte.nul || b == Byte.semicolon || b == Byte.commercialAt || b == Byte.dollar ||
    b == Byte.hash || b == Byte.colon || b == Byte.openBracket || b == Byte.closeBracket ||
    b == Byte.openBrace || b == Byte.closeBrace

/-- The first lexeme of a text that starts with `b`. -/
def next (escapes : Bool) (mode : SafeMode) (b : UInt8) (rest : Bytes) :
    Except Rejection (Lexeme × Bytes) :=
  if Byte.isSpace b then
    .ok (.space (b :: rest.takeWhile Byte.isSpace), rest.dropWhile Byte.isSpace)
  else if Byte.isWordStart b then
    readWord (b :: rest.takeWhile Byte.isWord) (rest.dropWhile Byte.isWord)
  else if b = Byte.apostrophe then do
    let (parts, rest) ← readString escapes rest
    return (.string parts, rest)
  else if b = Byte.doubleQuote ∨ b = Byte.backtick then do
    let (name, rest) ← readQuotedName b rest
    if name = [] then .error .emptyName
    return (.quotedName b name, rest)
  else if Byte.isDigit b then readNumber (b :: rest)
  else if b = Byte.minus ∧ rest.head? = some Byte.minus then .error .comment
  else if b = Byte.slash ∧ rest.head? = some Byte.star then .error .comment
  else if mode = .nested ∧ placeholderLength (b :: rest) ≠ 0 then
    let length := placeholderLength (b :: rest)
    .ok (.placeholder ((b :: rest).take length), (b :: rest).drop length)
  else if b = Byte.question then .error .bindPlaceholder
  else if isForbidden b then .error (.forbidden b)
  else .ok (.mark b, rest)

/-- The depth of parentheses after a lexeme at depth `depth`. -/
def depthAfter (mode : SafeMode) (depth : Nat) : Lexeme → Except Rejection Nat
  | .mark b =>
    if b = Byte.openParen then .ok (depth + 1)
    else if b = Byte.closeParen then
      if depth = 0 then .error .unbalancedParens else .ok (depth - 1)
    else if b = Byte.comma ∧ depth = 0 ∧ mode = .expression then .error .topLevelComma
    else .ok depth
  | _ => .ok depth

/-! ### Reading shortens the text -/

theorem length_readString (escapes : Bool) (text : Bytes) (parts : List StringPart) (rest : Bytes)
    (read : readString escapes text = .ok (parts, rest)) : rest.length < text.length := by
  fun_induction readString escapes text generalizing parts rest <;>
    simp_all [bind, Except.bind, pure, Except.pure] <;> grind

theorem length_readQuotedName (quote : UInt8) (text name rest : Bytes)
    (read : readQuotedName quote text = .ok (name, rest)) : rest.length < text.length := by
  fun_induction readQuotedName quote text generalizing name rest <;>
    simp_all [bind, Except.bind, pure, Except.pure] <;> grind

theorem length_readHexString (text digits rest : Bytes)
    (read : readHexString text = .ok (digits, rest)) : rest.length < text.length := by
  have shorter := (List.dropWhile_suffix Byte.isHexDigit (l := text)).length_le
  unfold readHexString at read
  grind

theorem length_readBitString (text digits rest : Bytes)
    (read : readBitString text = .ok (digits, rest)) : rest.length < text.length := by
  have shorter := (List.dropWhile_suffix isBit (l := text)).length_le
  unfold readBitString at read
  grind

theorem length_readWord (name text rest : Bytes) (l : Lexeme)
    (read : readWord name text = .ok (l, rest)) : rest.length ≤ text.length := by
  unfold readWord at read
  have hex := length_readHexString
  have bits := length_readBitString
  simp only [bind, Except.bind, pure, Except.pure] at read
  grind

theorem run_cons_pos (p : UInt8 → Bool) (b : UInt8) (rest : Bytes) (holds : p b = true) :
    0 < run p (b :: rest) := by
  rw [run, List.takeWhile_cons_of_pos holds]
  exact Nat.zero_lt_succ _

theorem numberLength_pos (b : UInt8) (rest : Bytes) (digit : Byte.isDigit b = true) :
    0 < numberLength (b :: rest) := by
  have whole := run_cons_pos Byte.isDigit b rest digit
  unfold numberLength
  split
  · split
    · exact Nat.lt_of_lt_of_le Nat.zero_lt_two (Nat.le_add_right 2 _)
    · simp_all only
      exact Nat.lt_of_lt_of_le whole (by omega)
  · exact whole

theorem length_next (escapes : Bool) (mode : SafeMode) (b : UInt8) (text rest : Bytes) (l : Lexeme)
    (read : next escapes mode b text = .ok (l, rest)) : rest.length ≤ text.length := by
  have spaces := (List.dropWhile_suffix Byte.isSpace (l := text)).length_le
  have word := (List.dropWhile_suffix Byte.isWord (l := text)).length_le
  unfold next at read
  simp only [bind, Except.bind, pure, Except.pure] at read
  split at read
  · grind
  split at read
  · have := length_readWord _ _ _ _ read
    omega
  split at read
  · have := length_readString escapes text
    grind
  split at read
  · have := length_readQuotedName b text
    grind
  split at read
  · have := numberLength_pos b text (by assumption)
    unfold readNumber at read
    grind
  grind

/-- The lexemes of a text that starts at depth `depth` of parentheses. -/
def readAll (escapes : Bool) (mode : SafeMode) (depth : Nat) (text : Bytes) :
    Except Rejection (List Lexeme) :=
  match text with
  | [] => if depth = 0 then .ok [] else .error .unbalancedParens
  | b :: rest =>
    match _read : next escapes mode b rest with
    | .error reason => .error reason
    | .ok (l, after) =>
      match depthAfter mode depth l with
      | .error reason => .error reason
      | .ok depth => (readAll escapes mode depth after).map (l :: ·)
termination_by text.length
decreasing_by
  have := length_next escapes mode b rest after l _read
  simp only [List.length_cons]
  omega

end Lexeme

end SqlTemplate
