import SqlTemplate.Name
import SqlTemplate.Render.Canvas

/-!
# Fillings

What is written for a hole of each kind. A filling holds the steps that a value offers; which of
them runs, and what becomes of the bytes around the hole, is decided by the kind of the hole alone.
-/

namespace SqlTemplate

namespace Render

/-! ### Names -/

def writeName (s : Settings) (qualifier : Option String) (name : String) : Render Unit :=
  write (Name.write s.nameQuote qualifier name)

/-- Names with commas between them. -/
def writeNames (s : Settings) (qualifier : Option String) (names : List String) : Render Unit :=
  write ((utf8 ", ").intercalate (names.map (Name.write s.nameQuote qualifier)))

/-- The name that a single value gives. -/
def nameOf : Value → Except Error String
  | .str name => .ok name
  | .int n => .ok (String.ofList (Json.intText n.toInt))
  | .uint n => .ok (String.ofList (Json.intText n.toNat))
  | value => .error (.stringify value.typeName)

/-- The names that a value gives: one, the items of a list, or the keys of a map. -/
def namesOf : Value → Except Error (List String)
  | .str name => .ok [name]
  | .map entries => .ok (Keyed.keys entries)
  | .list items =>
    items.mapM fun item =>
      match item.asStr? with
      | some name => .ok name
      | none => .error (.wrongShape .nameItem item.typeName)
  | value => .error (.wrongShape .names value.typeName)

/-- Fills a hole for a list of names. The result is how much of the next chunk goes with it: the
closing quote and the mark after it, except that the comma after a list with names stays. -/
def writeNameList (s : Settings) (qualifier : Option String) (kind : NameList) (next : Bytes)
    (value : Value) : Render Nat := do
  let names ← namesOf value
  if names.isEmpty then
    match kind with
    | .orAll => do
      writeName s qualifier "*"
      return 2
    | .nonempty => throw (.wrongShape .someName "empty list")
    | .optional => return if next[2]? = some Byte.space then 3 else 2
  else do
    writeNames s qualifier names
    return if kind = .optional then 1 else 2

/-! ### Lists -/

/-- Refuses a list nested deeper than the dialect allows. -/
def checkDepth (s : Settings) (depth : Nat) : Render Unit :=
  if s.maxListDepth < depth then throw (.listDepth depth s.dialect) else return

/-! ### Maps

A cell is a key of a map and the step that writes its value. -/

abbrev Cell := String × Render Unit

def equals (step : Render Unit) : Render Unit := do
  writeText "="
  step

/-- Keys with what their steps write, and `joiner` between them. -/
def writePairs (s : Settings) (qualifier : Option String) (joiner : String) (later : Bool) :
    List Cell → Render Unit
  | [] => return
  | (key, step) :: rest => do
    separate later joiner
    writeName s qualifier key
    step
    writePairs s qualifier joiner true rest

/-- Columns and the values they are set to. -/
def writeAssignments (s : Settings) (qualifier : Option String) (cells : List Cell) :
    Render Unit :=
  if cells.isEmpty then throw .emptySet
  else writePairs s qualifier ", " false (cells.map fun cell => (cell.1, equals cell.2))

/-- Columns and what holds for each, for all of them or for one. -/
def writeConditions (s : Settings) (all : Bool) (qualifier : Option String) (tests : List Cell) :
    Render Unit :=
  if tests.isEmpty then writeText (s.identityText all)
  else do
    writeText "("
    writePairs s qualifier (if all then " AND " else " OR ") false tests
    writeText ")"

/-! ### Row sets -/

/-- The cells of a row; what is no row is known by its type. -/
abbrev Row := Except String (List Cell)

/-- What stands for a cell that a row does not have. -/
def missingCell (s : Settings) : String := if s.family = .sqlite then "NULL" else "DEFAULT"

/-- The cell of a row in a column. -/
def writeCell (s : Settings) (row : List Cell) (column : String) : Render Unit :=
  (row.lookup column).getD (writeText (missingCell s))

def writeCells (s : Settings) (row : List Cell) (later : Bool) : List String → Render Unit
  | [] => return
  | column :: rest => do
    separate later ", "
    writeCell s row column
    writeCells s row true rest

/-- Refuses row `index` if it has a column that the first row does not have. -/
def checkColumns (columns : List String) (index : Nat) (row : List Cell) : Except Error Unit :=
  match (Keyed.keys row).find? fun key => !columns.contains key with
  | some column => .error (.rowShape index column)
  | none => .ok ()

def writeRows (s : Settings) (columns : List String) (index : Nat) : List Row → Render Unit
  | [] => return
  | .error found :: _ => throw (.wrongShape .rows found)
  | .ok row :: rest => do
    checkColumns columns index row
    separate (index != 0) ",\n"
    writeText "("
    writeCells s row false columns
    writeText ")"
    writeRows s columns (index + 1) rest

/-- The columns of the first row and the cells of every row. -/
def writeRowSet (s : Settings) : List Row → Render Unit
  | [] => throw .emptyRows
  | .error found :: _ => throw (.wrongShape .rows found)
  | .ok first :: rest => do
    writeText "("
    writeNames s none (Keyed.keys first)
    writeText ") VALUES "
    writeRows s (Keyed.keys first) 0 (.ok first :: rest)

/-! ### Holes -/

/-- The qualifier that a value gives to the next hole. -/
def qualifierOf : Value → Except Error String
  | .str name => .ok name
  | value => .error (.stringify value.typeName)

end Render

open Render

/-- What a value writes in a hole of each kind, given the qualifier of the hole where it has one. -/
structure Filling where
  source : Value
  value : Option String → Render Unit
  list : Render Unit
  rows : Render Unit
  assignments : Option String → Render Unit
  conditions : Bool → Option String → Render Unit
  expression : Option String → Render Unit
  bare : Option String → Render Unit

namespace Filling

/-- Writes a filling for a hole before the text `next`. The enclosing bytes of a hole belong to it,
except for parentheses: the one before is taken back, the one after is left to be skipped. -/
def write (s : Settings) (qualifier : Option String) (next : Bytes) (f : Filling) :
    Hole → Render Unit
  | .value => do
    dropLast
    f.value qualifier
    close (.skip 1)
  | .list => do
    setLast Byte.openParen
    f.list
    close ⟨1, some Byte.closeParen⟩
  | .rows => do
    dropLast
    f.rows
    close (.skip 1)
  | .name => do
    dropLast
    writeName s qualifier (← nameOf f.source)
    close (.skip 1)
  | .names kind => do
    dropLast
    close (.skip (← writeNameList s qualifier kind next f.source))
  | .assignments => do
    dropLast
    f.assignments qualifier
    close (.skip 1)
  | .conditions all => do
    dropLast
    f.conditions all qualifier
    close (.skip 1)
  | .expression => f.expression qualifier
  | .qualifier => do
    capture (← qualifierOf f.source)
    close (.skip 1)
  | .bare => f.bare qualifier

/-- Fills hole `index`, before the text `next`. A qualifier captured by the hole before goes before
the one inherited from outside the fragment. -/
def fill (s : Settings) (inherited : Option String) (index : Nat) (next : Bytes) (f : Filling) :
    Render Unit := do
  let qualifier := (← takeCaptured).or inherited
  f.write s qualifier next (← Hole.find index (← getOpener) next)

end Filling

end SqlTemplate
