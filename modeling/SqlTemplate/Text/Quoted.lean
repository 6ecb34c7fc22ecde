import SqlTemplate.Text.Hidden

/-!
# Quoted text

How a message shows a text or a character it quotes: between quotes, with the control characters
that have a letter written by it, the backslash and the enclosing quote escaped, and every other
character without a glyph of its own shown by its number.
-/

namespace SqlTemplate.Text

/-- The letter that stands for a character after a backslash. -/
def escapeLetter? (c : Char) : Option Char :=
  if c = '\x00' then some '0'
  else if c = '\t' then some 't'
  else if c = '\r' then some 'r'
  else if c = '\n' then some 'n'
  else if c = '\\' then some '\\'
  else none

/-- The hexadecimal number of a character, in lower case and without leading zeros. -/
def codePoint (c : Char) : List Char := Nat.toDigits 16 c.toNat

/-- One character of a text quoted with `quote`. -/
def shown (quote c : Char) : List Char :=
  match escapeLetter? c with
  | some letter => ['\\', letter]
  | none =>
    if c = quote then ['\\', c]
    else if isHidden c then ['\\', 'u', '\x7b'] ++ codePoint c ++ ['\x7d']
    else [c]

/-- A text between double quotes. -/
def quoted (text : String) : String :=
  String.ofList ('"' :: text.toList.flatMap (shown '"') ++ ['"'])

/-- A character between single quotes. -/
def quotedChar (c : Char) : String :=
  String.ofList ('\x27' :: shown '\x27' c ++ ['\x27'])

/-- Texts in brackets, separated by commas. -/
def quotedList (texts : List String) : String :=
  "[" ++ ", ".intercalate (texts.map quoted) ++ "]"

end SqlTemplate.Text
