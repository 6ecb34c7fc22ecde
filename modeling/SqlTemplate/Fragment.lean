import SqlTemplate.Error
import SqlTemplate.Value

/-!
# Putting fragments together

Fragments grow at their end, by literal text, by a value, or by another fragment. The size hint is
kept up to date with each step.
-/

namespace SqlTemplate

namespace Fragment

def empty (s : Settings) : Fragment := ⟨s, "", [], 0⟩

/-- The literal texts before, between and after the holes. -/
def chunks (f : Fragment) : List String := f.head :: f.holes.map (·.2)

def params (f : Fragment) : List Value := f.holes.map (·.1)

/-- The size hint of a fragment with these chunks and values. -/
def hintOf (chunks : List String) (params : List Value) : Nat :=
  chunks.foldr (fun chunk total => chunk.utf8ByteSize + total)
    (params.foldr (fun value total => value.estimate + total) 0)

/-- A fragment of literal texts and the values between them. -/
def ofChunks (s : Settings) (chunks : List String) (params : List Value) :
    Except Error Fragment :=
  match chunks with
  | head :: rest =>
    if rest.length = params.length then
      .ok ⟨s, head, params.zip rest, hintOf chunks params⟩
    else .error (.chunkCount chunks.length params.length)
  | [] => .error (.chunkCount 0 params.length)

/-- Appends a text to the last chunk of a sequence of holes. -/
def extendLast (sql : String) : List (Value × String) → List (Value × String)
  | [] => []
  | [(value, chunk)] => [(value, chunk ++ sql)]
  | hole :: rest => hole :: extendLast sql rest

def pushSql (f : Fragment) (sql : String) : Fragment :=
  match f.holes with
  | [] => { f with head := f.head ++ sql, sizeHint := f.sizeHint + sql.utf8ByteSize }
  | holes => { f with holes := extendLast sql holes, sizeHint := f.sizeHint + sql.utf8ByteSize }

def pushParam (f : Fragment) (value : Value) : Fragment :=
  { f with holes := f.holes ++ [(value, "")], sizeHint := f.sizeHint + value.estimate }

end Fragment

/-- A fragment in a dialect's only-mode may stand only in fragments of its family. -/
def Settings.checkEmbeds (parent child : Settings) : Except Error Unit :=
  if child.dialect.isOnly && child.family != parent.family then
    .error (.unsupported (.embedding child.dialect) parent.dialect)
  else .ok ()

namespace Fragment

/-- Appends another fragment, whose first chunk becomes one with the last chunk. -/
def concat (f other : Fragment) : Except Error Fragment := do
  f.settings.checkEmbeds other.settings
  let joined := f.pushSql other.head
  return { joined with
    holes := joined.holes ++ other.holes
    sizeHint := joined.sizeHint + other.sizeHint }

end Fragment

end SqlTemplate
