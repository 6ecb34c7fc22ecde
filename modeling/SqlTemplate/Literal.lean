import SqlTemplate.Error
import SqlTemplate.Value

/-!
# Literals

The SQL text of a value. Two decisions depend on the target: whether strings escape with a
backslash, and whether booleans and byte strings are written as numbers.
-/

namespace SqlTemplate

structure LiteralStyle where
  noBackslashEscapes : Bool
  isMssql : Bool
deriving DecidableEq, Repr

def Settings.literalStyle (s : Settings) : LiteralStyle :=
  ⟨s.noBackslashEscapes, s.family = .mssql⟩

/-- The style of a dialect on its own. -/
def Dialect.literalStyle (d : Dialect) : LiteralStyle :=
  ⟨!d.family.escapesBackslash, d.family = .mssql⟩

namespace Literal

/-- Whether a byte is written twice inside a string literal. -/
def isDoubled (noBackslashEscapes : Bool) (b : UInt8) : Bool :=
  b == Byte.apostrophe || (b == Byte.backslash && !noBackslashEscapes)

def stringBody (noBackslashEscapes : Bool) : Bytes → Bytes
  | [] => []
  | b :: rest =>
    if isDoubled noBackslashEscapes b then b :: b :: stringBody noBackslashEscapes rest
    else b :: stringBody noBackslashEscapes rest

/-- A string between apostrophes. -/
def string (noBackslashEscapes : Bool) (text : Bytes) : Bytes :=
  Byte.apostrophe :: stringBody noBackslashEscapes text ++ [Byte.apostrophe]

/-- A byte string in hexadecimal digits. -/
def byteString (isMssql : Bool) (bytes : Bytes) : Bytes :=
  if isMssql then utf8 "0x" ++ hexText bytes
  else utf8 "x'" ++ hexText bytes ++ [Byte.apostrophe]

def boolText : Bool → Bool → String
  | true, true => "1"
  | true, false => "0"
  | false, true => "TRUE"
  | false, false => "FALSE"

/-- Numbers are positional, without a fractional zero. -/
def numberLayout : Layout where
  isPositional _ := true
  pointZero := false
  tie := .up

def chars (text : List Char) : Bytes := utf8 (String.ofList text)

/-- Integers are written if they have 64 bits and a sign. -/
def checkRange (n : Int) : Except Error Int :=
  if -9223372036854775808 ≤ n ∧ n ≤ 9223372036854775807 then .ok n
  else .error (.range (String.ofList (Json.intText n)))

/-- A JSON text in a string literal. -/
def json (style : LiteralStyle) (j : Json) : Bytes :=
  string style.noBackslashEscapes (chars j.text)

/-- A text of the calendar between apostrophes. -/
def dateText (text : List Char) : Bytes :=
  Byte.apostrophe :: chars text ++ [Byte.apostrophe]

/-- The literal of a value that holds no other value. -/
def scalar (style : LiteralStyle) : Value → Except Error Bytes
  | .null => .ok (utf8 "NULL")
  | .bool b => .ok (utf8 (boolText style.isMssql b))
  | .int n => .ok (chars (Json.intText n.toInt))
  | .uint n => do return chars (Json.intText (← checkRange n.toNat))
  | .bigint n => do return chars (Json.intText (← checkRange n))
  | .float x =>
    if x.isFinite then .ok (chars (numberLayout.text x)) else .error (.range x.specialText)
  | .str s => .ok (string style.noBackslashEscapes (utf8 s))
  | .bytes b => .ok (byteString style.isMssql b)
  | .date d => .ok (dateText d.text)
  | .dateTime t => .ok (dateText t.text)
  | .json j => .ok (json style j)
  | value => .error (.stringify value.typeName)

/-- The JSON form of a value that holds no other value. -/
def scalarJson : Value → Except Error Json
  | .bool b => .ok (.bool b)
  | .int n => .ok (.int n.toInt)
  | .uint n => .ok (.int n.toNat)
  | .bigint n => do return .int (← checkRange n)
  | .float x => .ok (.ofFloat x)
  | .str s => .ok (.str s)
  | .bytes b => .ok (.str (String.ofList ((hexText b).map fun b => Char.ofNat b.toNat)))
  | .date d => .ok (.str (String.ofList d.text))
  | .dateTime t => .ok (.str (String.ofList t.text))
  | .json j => .ok j
  | _ => .ok .null

end Literal

end SqlTemplate
