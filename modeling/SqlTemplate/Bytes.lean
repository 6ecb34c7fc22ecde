/-!
# The bytes of a text

Every character that opens, closes or steers a part of an SQL statement is ASCII, and in UTF-8 no
byte of a longer character is. The library therefore reads and edits statements as lists of bytes
and speaks of characters only where it prints a message.
-/

namespace SqlTemplate

abbrev Bytes := List UInt8

/-- The UTF-8 bytes of a text. -/
def utf8 (text : String) : Bytes := text.toByteArray.data.toList

theorem utf8_append (x y : String) : utf8 (x ++ y) = utf8 x ++ utf8 y := by
  simp [utf8, String.toByteArray_append, ByteArray.data_append]

namespace Byte

abbrev nul : UInt8 := 0x00
abbrev space : UInt8 := 0x20
abbrev doubleQuote : UInt8 := 0x22
abbrev hash : UInt8 := 0x23
abbrev dollar : UInt8 := 0x24
abbrev ampersand : UInt8 := 0x26
abbrev apostrophe : UInt8 := 0x27
abbrev openParen : UInt8 := 0x28
abbrev closeParen : UInt8 := 0x29
abbrev star : UInt8 := 0x2A
abbrev plus : UInt8 := 0x2B
abbrev comma : UInt8 := 0x2C
abbrev minus : UInt8 := 0x2D
abbrev dot : UInt8 := 0x2E
abbrev slash : UInt8 := 0x2F
abbrev zero : UInt8 := 0x30
abbrev colon : UInt8 := 0x3A
abbrev semicolon : UInt8 := 0x3B
abbrev less : UInt8 := 0x3C
abbrev greater : UInt8 := 0x3E
abbrev question : UInt8 := 0x3F
abbrev commercialAt : UInt8 := 0x40
abbrev openBracket : UInt8 := 0x5B
abbrev backslash : UInt8 := 0x5C
abbrev closeBracket : UInt8 := 0x5D
abbrev backtick : UInt8 := 0x60
abbrev openBrace : UInt8 := 0x7B
abbrev bar : UInt8 := 0x7C
abbrev closeBrace : UInt8 := 0x7D

/-! ### Classes of bytes -/

/-- Space, tab, line feed, carriage return and form feed separate words. -/
def isSpace (b : UInt8) : Bool :=
  b == 0x20 || b == 0x09 || b == 0x0A || b == 0x0D || b == 0x0C

def isDigit (b : UInt8) : Bool := 0x30 ≤ b && b ≤ 0x39

def isHexDigit (b : UInt8) : Bool :=
  isDigit b || (0x41 ≤ b && b ≤ 0x46) || (0x61 ≤ b && b ≤ 0x66)

def isLetter (b : UInt8) : Bool := (0x41 ≤ b && b ≤ 0x5A) || (0x61 ≤ b && b ≤ 0x7A)

/-- A word starts with a letter, an underscore or any byte of a character beyond ASCII. -/
def isWordStart (b : UInt8) : Bool := isLetter b || b == 0x5F || 0x80 ≤ b

def isWord (b : UInt8) : Bool := isWordStart b || isDigit b

/-- The upper-case form of an ASCII letter; any other byte is left alone. -/
def upper (b : UInt8) : UInt8 := if 0x61 ≤ b && b ≤ 0x7A then b - 0x20 else b

/-! ### Hexadecimal digits -/

def hexDigit (n : UInt8) : UInt8 := if n < 10 then 0x30 + n else 0x57 + n

/-- The two lower-case hexadecimal digits of a byte. -/
def hex (b : UInt8) : Bytes := [hexDigit (b / 16), hexDigit (b % 16)]

end Byte

/-- Lower-case hexadecimal text of a byte sequence. -/
def hexText (bytes : Bytes) : Bytes := bytes.flatMap Byte.hex

/-- Writes the byte `quote` twice wherever it occurs and every other byte once. -/
def doubled (quote : UInt8) : Bytes → Bytes
  | [] => []
  | b :: rest => if b = quote then b :: b :: doubled quote rest else b :: doubled quote rest

end SqlTemplate
