import SqlTemplate.Name
import SqlTemplate.Sanitize.Edit
import SqlTemplate.Sanitize.Lexeme
import SqlTemplate.Settings

/-!
# Fitting lexemes to a dialect

Accepted lexemes are fitted to the target by edits of the text they were read from. Words that may
not stand bare are quoted, and qualified where they name a column without saying whose; calls of
known functions are closed up; quoted names, escaped apostrophes and hexadecimal literals take the
form of the target.
-/

namespace SqlTemplate.Lexeme

/-- The keyword before an alias, in its two spellings. -/
def isAs (name : Bytes) : Bool := name == [0x41, 0x53] || name == [0x61, 0x73]

/-- The white space at the front of what follows a word. -/
def leadingSpace : List Lexeme → Bytes
  | .space run :: _ => run
  | _ => []

/-- Whether a parenthesis opens after optional white space. -/
def opensCall : List Lexeme → Bool
  | .space _ :: .mark b :: _ => b == Byte.openParen
  | .mark b :: _ => b == Byte.openParen
  | _ => false

def startsWithDot : List Lexeme → Bool
  | .mark b :: _ => b == Byte.dot
  | _ => false

/-- Encloses the bytes from `start` to `stop` in quotes, with `lead` before the first. -/
def quoteEdits (quote : UInt8) (lead : Bytes) (start stop : Nat) : List Edit :=
  [⟨start, 0, lead ++ [quote]⟩, ⟨stop, 0, [quote]⟩]

/-- The edits of a word. An alias stays as it is, also where it is no keyword; a word beside a dot
already says whose it is; a word that is called is a function. -/
def wordEdits (s : Settings) (lead : Bytes) (afterAs afterDot : Bool) (start : Nat) (name : Bytes)
    (following : List Lexeme) : List Edit :=
  let stop := start + name.length
  let quoteOnly := quoteEdits s.nameQuote [] start stop
  let call := opensCall following
  if isAs name then []
  else if afterAs && !call then if s.alwaysQuote then quoteOnly else []
  else if afterDot || startsWithDot following then
    if s.alwaysQuote || !s.idents.allows name then quoteOnly else []
  else if s.idents.allows name then []
  else if call then
    if s.functions.allows name then
      let gap := (leadingSpace following).length
      if gap = 0 then [] else [⟨stop, gap, []⟩]
    else quoteOnly
  else quoteEdits s.nameQuote lead start stop

/-- An apostrophe after a backslash is written as two apostrophes. -/
def stringEdits (start : Nat) : List StringPart → List Edit
  | [] => []
  | part :: rest =>
    let following := stringEdits (start + part.source.length) rest
    if part = .escaped Byte.apostrophe then
      ⟨start, 2, [Byte.apostrophe, Byte.apostrophe]⟩ :: following
    else following

/-- The edits of the lexeme at position `start`. -/
def edits (s : Settings) (lead : Bytes) (afterAs afterDot : Bool) (start : Nat)
    (following : List Lexeme) : Lexeme → List Edit
  | .word name => wordEdits s lead afterAs afterDot start name following
  | .string parts => stringEdits (start + 1) parts
  | .quotedName quote name =>
    if quote = s.nameQuote then []
    else [⟨start, (Lexeme.quotedName quote name).source.length, Name.enclose s.nameQuote name⟩]
  | .hexString letter digits =>
    if s.family = .mssql then
      [⟨start, (Lexeme.hexString letter digits).source.length, utf8 "0x" ++ digits⟩]
    else []
  | _ => []

/-- Whether the next word is an alias: it follows the keyword, with nothing but space between. -/
def expectsAlias (afterAs : Bool) : Lexeme → Bool
  | .space _ => afterAs
  | .word name => isAs name
  | _ => false

/-- The edits of a text from the lexeme at position `start` on. -/
def editsFrom (s : Settings) (lead : Bytes) (afterAs afterDot : Bool) (start : Nat) :
    List Lexeme → List Edit
  | [] => []
  | l :: rest =>
    l.edits s lead afterAs afterDot start rest ++
      editsFrom s lead (l.expectsAlias afterAs) (l == .mark Byte.dot) (start + l.source.length) rest

end SqlTemplate.Lexeme
