import SqlTemplate.Fragment
import SqlTemplate.Literal
import SqlTemplate.Render.Hole
import SqlTemplate.Sanitize

/-!
# The canvas

What rendering writes to: the shared output buffer, the sink for long values if there is one, and
what one hole leaves behind for the next chunk or the next hole. A rendering step may fail; what it
put into the sink before stays there.
-/

namespace SqlTemplate

structure Canvas where
  out : Buffer
  sink : Option (Array Value)
  /-- The qualifier that the next hole takes. -/
  captured : Option String
  closing : Closing
  /-- The last byte of the chunk just written. -/
  opener : Option UInt8

/-- A step of rendering. -/
abbrev Render (α : Type) := ExceptT Error (StateM Canvas) α

namespace Canvas

def start (out : Buffer) (sink : Option (Array Value)) : Canvas := ⟨out, sink, none, .none, none⟩

end Canvas

namespace Render

variable {α : Type}

def write (bytes : Bytes) : Render Unit :=
  modify fun c => { c with out := c.out.append bytes }

def writeText (text : String) : Render Unit := write (utf8 text)

/-- Writes what separates an item from one before it. -/
def separate (later : Bool) (text : String) : Render Unit :=
  if later then writeText text else return

/-- Drops the last byte of the output. -/
def dropLast : Render Unit := modify fun c => { c with out := c.out.pop }

/-- Replaces the last byte of the output. -/
def setLast (b : UInt8) : Render Unit := modify fun c => { c with out := c.out.setLast b }

/-- Settles what the hole before the chunk left open and writes the chunk. -/
def writeChunk (chunk : String) : Render Unit :=
  modify fun c =>
    let rest := (utf8 chunk).drop c.closing.skipped
    { c with
      out := c.out.append (c.closing.replacement.toList ++ rest)
      closing := .none
      opener := rest.getLast? }

def close (closing : Closing) : Render Unit := modify fun c => { c with closing := closing }

def capture (name : String) : Render Unit := modify fun c => { c with captured := some name }

/-- Takes the qualifier that the hole before captured. -/
def takeCaptured : Render (Option String) :=
  modifyGet fun c => (c.captured, { c with captured := none })

def getOpener : Render (Option UInt8) := return (← get).opener

/-- Runs a step that may leave nothing behind for what follows it. -/
def isolated (step : Render Unit) : Render Unit := do
  let captured := (← get).captured
  modify fun c => { c with captured := none }
  step
  modify fun c => { c with captured := captured, closing := .none }

/-- Checks what `step` writes and fits it to the dialect. -/
def sanitized (qualifier : Option String) (s : Settings) (mode : SafeMode) (step : Render Unit) :
    Render Unit := do
  let start := (← get).out.size
  step
  let out ← (← get).out.sanitize start qualifier s mode
  modify fun c => { c with out := out }

/-! ### Long values -/

/-- The most values that a sink takes. -/
def sinkLimit : Nat := 65535

/-- The text that stands for the value at a position of the sink, counted from one. -/
def placeholder (family : Family) (position : Nat) : String :=
  match family with
  | .mysql | .sqlite => "?"
  | .postgres => s!"${position}"
  | .mssql => s!"@p{position}"

/-- Whether a value is long enough to go to a sink. -/
def isLong (s : Settings) : Value → Bool
  | .str text => s.inlineLimit < text.utf8ByteSize
  | .bytes bytes => s.inlineLimit < bytes.length
  | _ => false

/-- Puts a value into the sink and writes its placeholder, if there is a sink with room. -/
def externalize (s : Settings) (value : Value) : Render Bool := do
  match (← get).sink with
  | none => return false
  | some sink =>
    if sinkLimit ≤ sink.size then return false
    modify fun c => { c with sink := some (sink.push value) }
    writeText (placeholder s.family (sink.size + 1))
    return true

/-- Writes a value that holds no other value: its placeholder if it is long, else its literal. -/
def writeScalar (s : Settings) (value : Value) : Render Unit := do
  if isLong s value then
    if ← externalize s value then return
  write (← Literal.scalar s.literalStyle value)

end Render

end SqlTemplate
