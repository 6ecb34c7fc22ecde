import SqlTemplate.Render.Filling

/-!
# Rendering

A fragment is rendered from left to right, chunk by chunk and hole by hole, under the settings of
the outermost fragment. A value inside a list or a map of a JSON text is not part of the statement:
a fragment found there is rendered on its own, under its own settings.
-/

namespace SqlTemplate

open Render

/-- The text that a step writes to an empty canvas without a sink. -/
def Render.toText (sizeHint : Nat) (step : Render Unit) : Except Error String :=
  match (step.run (Canvas.start (.withCapacity sizeHint) none)).run with
  | (.ok _, canvas) => canvas.out.toText
  | (.error e, _) => .error e

/-- Renders a fragment with settings `child` inside one with settings `s`. -/
def Render.embedded (s child : Settings) (step : Render Unit) : Render Unit := do
  s.checkEmbeds child
  isolated step

/-- Writes a JSON text as a string literal. -/
def Render.writeJson (s : Settings) (json : Except Error Json) : Render Unit := do
  write (Literal.json s.literalStyle (← json))

/-- Writes the literal of a value that holds no other value. -/
def Render.writeLiteral (s : Settings) (value : Value) : Render Unit := do
  write (← Literal.scalar s.literalStyle value)

mutual

/-- The JSON form of a value. -/
def Value.toJson : Value → Except Error Json
  | .list items => .arr <$> jsonItems items
  | .map entries => .obj <$> jsonMembers entries
  | .fragment ⟨s, head, holes, sizeHint⟩ =>
    .str <$> toText sizeHint (renderFrom s none 0 head holes)
  | value => Literal.scalarJson value

def jsonItems : List Value → Except Error (List Json)
  | [] => .ok []
  | item :: rest => do return (← item.toJson) :: (← jsonItems rest)

def jsonMembers : List (String × Value) → Except Error (List (String × Json))
  | [] => .ok []
  | (key, value) :: rest => do return (key, ← value.toJson) :: (← jsonMembers rest)

/-- Writes a value where a value is asked for: a fragment as it renders, a long value by its
placeholder, any other by its literal. -/
def writeValue (s : Settings) (qualifier : Option String) : Value → Render Unit
  | .fragment ⟨child, head, holes, _⟩ =>
    embedded s child (renderFrom s qualifier 0 head holes)
  | .list items => writeJson s (.arr <$> jsonItems items)
  | .map entries => writeJson s (.obj <$> jsonMembers entries)
  | value => writeScalar s value

/-- The items of a list at nesting depth `depth`. A nested list stands in parentheses of its own. -/
def writeItems (s : Settings) (depth : Nat) (later : Bool) : List Value → Render Unit
  | [] => if later then return else writeText "NULL"
  | .list inner :: rest => do
    separate later ", "
    writeText "("
    checkDepth s (depth + 1)
    writeItems s (depth + 1) false inner
    writeText ")"
    writeItems s depth true rest
  | item :: rest => do
    separate later ", "
    writeValue s none item
    writeItems s depth true rest

def writeList (s : Settings) : Value → Render Unit
  | .list items => writeItems s 1 false items
  | value => throw (.wrongShape .list value.typeName)

def cellsOf (s : Settings) : List (String × Value) → List Cell
  | [] => []
  | (key, value) :: rest => (key, writeValue s none value) :: cellsOf s rest

def rowsOf (s : Settings) : List Value → List Row
  | [] => []
  | .map entries :: rest => .ok (cellsOf s entries) :: rowsOf s rest
  | value :: rest => .error value.typeName :: rowsOf s rest

/-- The rows of a list of maps. A map alone is a single row. -/
def writeRowsOf (s : Settings) : Value → Render Unit
  | .list rows => writeRowSet s (rowsOf s rows)
  | .map entries => writeRowSet s [.ok (cellsOf s entries)]
  | value => throw (.wrongShape .rows value.typeName)

def writeAssignmentsOf (s : Settings) (qualifier : Option String) : Value → Render Unit
  | .map entries => writeAssignments s qualifier (cellsOf s entries)
  | value => throw (.wrongShape .pairs value.typeName)

/-- What holds for each column: null has a test of its own, a list asks for membership. -/
def testsOf (s : Settings) : List (String × Value) → List Cell
  | [] => []
  | (key, .null) :: rest => (key, writeText " IS NULL") :: testsOf s rest
  | (key, .list items) :: rest =>
    (key, do
      writeText " IN ("
      writeItems s 1 false items
      writeText ")") :: testsOf s rest
  | (key, value) :: rest => (key, equals (writeValue s none value)) :: testsOf s rest

def writeConditionsOf (s : Settings) (all : Bool) (qualifier : Option String) :
    Value → Render Unit
  | .map entries => writeConditions s all qualifier (testsOf s entries)
  | value => throw (.wrongShape .pairs value.typeName)

/-- Writes a value that must be a safe expression. A fragment was written by the program and is
checked only if it stands under a qualifier, which its columns then take. -/
def writeExpression (s : Settings) (qualifier : Option String) : Value → Render Unit
  | .fragment ⟨child, head, holes, _⟩ =>
    if qualifier.isSome then
      sanitized qualifier s .nested (embedded s child (renderFrom s qualifier 0 head holes))
    else embedded s child (renderFrom s qualifier 0 head holes)
  | .str text => sanitized qualifier s .expression (writeText text)
  | .list items => sanitized qualifier s .expression (writeJson s (.arr <$> jsonItems items))
  | .map entries => sanitized qualifier s .expression (writeJson s (.obj <$> jsonMembers entries))
  | value => sanitized qualifier s .expression (writeLiteral s value)

/-- Writes a value that nothing encloses. -/
def writeBare (s : Settings) (qualifier : Option String) : Value → Render Unit
  | .fragment ⟨child, head, holes, _⟩ =>
    embedded s child (renderFrom s qualifier 0 head holes)
  | .str text => sanitized qualifier s .chunk (writeText text)
  | .list items => writeJson s (.arr <$> jsonItems items)
  | .map entries => writeJson s (.obj <$> jsonMembers entries)
  | value => writeLiteral s value

/-- Renders a chunk and the holes after it, the first of which is hole `index`. -/
def renderFrom (s : Settings) (inherited : Option String) (index : Nat) (chunk : String) :
    List (Value × String) → Render Unit
  | [] => writeChunk chunk
  | (value, following) :: rest => do
    writeChunk chunk
    Filling.fill s inherited index (utf8 following) {
      source := value
      value := fun qualifier => writeValue s qualifier value
      list := writeList s value
      rows := writeRowsOf s value
      assignments := fun qualifier => writeAssignmentsOf s qualifier value
      conditions := fun all qualifier => writeConditionsOf s all qualifier value
      expression := fun qualifier => writeExpression s qualifier value
      bare := fun qualifier => writeBare s qualifier value }
    renderFrom s inherited (index + 1) following rest

end

/-- The literal of a value. A fragment has none. -/
def Value.literal (style : LiteralStyle) : Value → Except Error Bytes
  | .list items => return Literal.json style (.arr (← jsonItems items))
  | .map entries => return Literal.json style (.obj (← jsonMembers entries))
  | value => Literal.scalar style value

namespace Fragment

/-- How a single rendering departs from the settings of its fragment. -/
structure Options where
  noBackslashEscapes : Option Bool := none

def render (s : Settings) (inherited : Option String) (f : Fragment) : Render Unit :=
  renderFrom s inherited 0 f.head f.holes

def Options.settings (options : Options) (s : Settings) : Settings :=
  match options.noBackslashEscapes with
  | some value => s.setNoBackslashEscapes value
  | none => s

/-- What a rendering leaves: the buffer, back in its old state after an error, and the sink. -/
structure Rendered where
  result : Except Error Unit
  out : Buffer
  sink : Option (Array Value)

/-- Renders a fragment to the end of a buffer. -/
def renderInto (f : Fragment) (out : Buffer) (sink : Option (Array Value)) (options : Options) :
    Rendered :=
  let s := options.settings f.settings
  match ((f.render s none).run (.start (out.reserve f.sizeHint) sink)).run with
  | (.ok _, canvas) => ⟨.ok (), canvas.out, canvas.sink⟩
  | (.error e, canvas) => ⟨.error e, canvas.out.truncate out.size, canvas.sink⟩

/-- The text of a fragment, with every value inline. -/
def toSql (f : Fragment) : Except Error String :=
  toText f.sizeHint (f.render f.settings none)

/-- The bytes of a fragment, with every value inline. -/
def toBytes (f : Fragment) (options : Options) : Except Error Buffer :=
  let rendered := f.renderInto (.withCapacity f.sizeHint) none options
  rendered.result.map fun _ => rendered.out

end Fragment

/-- The SQL text of a value: of a fragment what it renders to, of any other value its literal. -/
def Value.quote (style : LiteralStyle) : Value → Except Error String
  | .fragment f => f.toSql
  | value => do (Buffer.empty.append (← value.literal style)).toText

end SqlTemplate
