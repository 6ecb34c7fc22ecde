import SqlTemplate.Sanitize.Fitting

/-!
# Safe texts

Checks a text that may come from anyone and fits it to the target dialect, or refuses it.
-/

namespace SqlTemplate

namespace Buffer

/-- Checks and fits the bytes of the buffer from position `start` on. -/
def sanitize (b : Buffer) (start : Nat) (qualifier : Option String) (s : Settings)
    (mode : SafeMode) : Except Error Buffer :=
  let text := b.tail start
  match Lexeme.readAll s.usesBackslashEscapes mode 0 text with
  | .error reason => .error (.unsafeText text reason)
  | .ok lexemes =>
    match Lexeme.editsFrom s (Name.lead s.nameQuote qualifier) false false 0 lexemes with
    | [] => .ok b
    | edits => .ok (b.edit start edits)

end Buffer

/-- Checks a text and fits it to the dialect, with the names of columns under a qualifier where one
is given. -/
def sanitize (text : String) (qualifier : Option String) (s : Settings) (mode : SafeMode) :
    Except Error String := do
  (← (Buffer.ofText text).sanitize 0 qualifier s mode).toText

end SqlTemplate
