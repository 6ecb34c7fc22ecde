import SqlTemplate.Number.Layout

/-!
# JSON

JSON values with members in a fixed order, and their compact text.
-/

namespace SqlTemplate

inductive Json where
  | null
  | bool (b : Bool)
  | int (n : Int)
  /-- A finite number. -/
  | float (x : Binary64)
  | str (s : String)
  | arr (items : List Json)
  | obj (members : List (String × Json))

namespace Json

/-- The number, or null for what is no number. -/
def ofFloat (x : Binary64) : Json := if x.isFinite then .float x else .null

/-- Numbers are positional while the leading digit has an exponent from -5 to 15, and always show a
point or an exponent. -/
def numberLayout : Layout where
  isPositional lead := -5 ≤ lead && lead ≤ 15
  pointZero := true
  tie := .toEven

def escaped (c : Char) : List Char :=
  if c = '"' then ['\\', '"']
  else if c = '\\' then ['\\', '\\']
  else if c = '\x08' then ['\\', 'b']
  else if c = '\x0c' then ['\\', 'f']
  else if c = '\n' then ['\\', 'n']
  else if c = '\r' then ['\\', 'r']
  else if c = '\t' then ['\\', 't']
  else if c.toNat < 0x20 then
    ['\\', 'u', '0', '0', Nat.digitChar (c.toNat / 16), Nat.digitChar (c.toNat % 16)]
  else [c]

def stringText (s : String) : List Char := '"' :: s.toList.flatMap escaped ++ ['"']

def intText (n : Int) : List Char :=
  (if n < 0 then ['-'] else []) ++ Nat.toDigits 10 n.natAbs

mutual

/-- The compact text of a value. -/
def text : Json → List Char
  | .null => "null".toList
  | .bool b => (if b then "true" else "false").toList
  | .int n => intText n
  | .float x => numberLayout.text x
  | .str s => stringText s
  | .arr items => '[' :: itemsText false items ++ [']']
  | .obj members => '\x7b' :: membersText false members ++ ['\x7d']

def itemsText (later : Bool) : List Json → List Char
  | [] => []
  | item :: rest => (if later then [','] else []) ++ text item ++ itemsText true rest

def membersText (later : Bool) : List (String × Json) → List Char
  | [] => []
  | (key, value) :: rest =>
    (if later then [','] else []) ++ stringText key ++ ':' :: text value ++ membersText true rest

end

end Json

end SqlTemplate
