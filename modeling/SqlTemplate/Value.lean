import SqlTemplate.Calendar
import SqlTemplate.Json
import SqlTemplate.Keyed
import SqlTemplate.Settings

/-!
# Values and fragments

A fragment is a piece of SQL with holes: literal text, and after each hole's value the literal text
up to the next hole. A value may be a fragment itself, so the two types are defined together.
-/

namespace SqlTemplate

mutual

inductive Value where
  | null
  | bool (b : Bool)
  | int (n : Int64)
  | uint (n : UInt64)
  /-- An integer of up to 128 bits. -/
  | bigint (n : Int)
  | float (x : Binary64)
  | str (s : String)
  | bytes (b : Bytes)
  | date (d : Date)
  | dateTime (t : DateTime)
  | json (j : Json)
  | list (items : List Value)
  /-- Entries with distinct keys, in the order in which the keys first came. -/
  | map (entries : List (String × Value))
  | fragment (f : Fragment)
  /-- A value without SQL text, known by the name of its type. -/
  | foreign (typeName : String)

structure Fragment where
  settings : Settings
  /-- The literal text before the first hole. -/
  head : String
  /-- The value of each hole and the literal text after it. -/
  holes : List (Value × String)
  /-- An estimate of the length of the rendered text. -/
  sizeHint : Nat

end

namespace Value

def typeName : Value → String
  | .null => "null"
  | .bool _ => "boolean"
  | .int _ | .uint _ | .float _ => "number"
  | .bigint _ => "bigint"
  | .str _ => "string"
  | .bytes _ => "bytes"
  | .date _ | .dateTime _ => "date"
  | .json _ => "json"
  | .list _ => "list"
  | .map _ => "map"
  | .fragment _ => "fragment"
  | .foreign name => name

def isNull : Value → Bool
  | .null => true
  | _ => false

def asStr? : Value → Option String
  | .str s => some s
  | _ => none

def ofEntries (entries : List (String × Value)) : Value := .map (Keyed.ofList entries)

/-- A number of 16 bytes in the text form of groups of hexadecimal digits. -/
def ofUuid (bytes : Bytes) : Value :=
  let digits := (hexText bytes).map fun b => Char.ofNat b.toNat
  let group (start length : Nat) := (digits.drop start).take length
  .str (String.ofList ([ '-' ].intercalate
    [group 0 8, group 8 4, group 12 4, group 16 4, group 20 12]))

/-! ### Estimates

How many bytes the text of a value will take, roughly and in general not less than that many. -/

mutual

def estimate : Value → Nat
  | .null | .bool _ => 5
  | .int _ | .uint _ => 24
  | .bigint _ => 40
  | .float x => x.widthBound
  | .date _ | .dateTime _ => 26
  | .str s => s.utf8ByteSize * 2 + 3
  | .bytes b => b.length * 2 + 3
  | .json _ | .foreign _ => 64
  | .list items => estimateItems items + 2
  | .map entries => estimateEntries entries + 2
  | .fragment f => f.sizeHint + 2

def estimateItems : List Value → Nat
  | [] => 0
  | item :: rest => estimate item + 2 + estimateItems rest

def estimateEntries : List (String × Value) → Nat
  | [] => 0
  | (key, value) :: rest => key.utf8ByteSize + estimate value + 6 + estimateEntries rest

end

end Value

end SqlTemplate
