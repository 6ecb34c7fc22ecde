import SqlTemplate.Error

/-!
# Holes

What a hole asks for follows from the bytes around it: the byte before it, if the chunk so far has
one, and the bytes after it.
-/

namespace SqlTemplate

/-- How a list of names behaves when it is empty: it stands for all columns, is refused, or takes
the comma after it away. -/
inductive NameList where
  | orAll
  | nonempty
  | optional
deriving DecidableEq, Repr

inductive Hole where
  | value
  | list
  | rows
  | name
  | names (kind : NameList)
  | assignments
  /-- Conditions that must all hold, or of which one must. -/
  | conditions (all : Bool)
  | expression
  /-- The value qualifies the names of the next hole. -/
  | qualifier
  | bare
deriving DecidableEq, Repr

/-- A closing byte still to be dealt with when the next chunk is written: the number of bytes that
are left out at its front, and the byte that is written in their place. -/
structure Closing where
  skipped : Nat
  replacement : Option UInt8
deriving DecidableEq, Repr

namespace Closing

def none : Closing := ⟨0, .none⟩

def skip (n : Nat) : Closing := ⟨n, .none⟩

end Closing

namespace Hole

/-- The bytes that open an enclosure. -/
def isOpener (b : UInt8) : Bool :=
  b == Byte.apostrophe || b == Byte.openBracket || b == Byte.less || b == Byte.backtick ||
    b == Byte.doubleQuote || b == Byte.openBrace || b == Byte.openParen

/-- The kind of a hole that `opener` opens, if the next chunk closes it. -/
def enclosed? (opener : UInt8) (next : Bytes) : Option Hole :=
  let close := next.head?
  if opener = Byte.apostrophe then
    if close = some Byte.apostrophe then some .value else none
  else if opener = Byte.openBracket then
    if close = some Byte.closeBracket then some .list else none
  else if opener = Byte.less then
    if close = some Byte.greater then some .rows else none
  else if opener = Byte.openBrace then
    if close = some Byte.closeBrace then some .assignments
    else if close = some Byte.ampersand then some (.conditions true)
    else if close = some Byte.bar then some (.conditions false)
    else none
  else if opener = Byte.openParen then
    if close = some Byte.closeParen then some .expression else none
  else if close = some opener then
    match next[1]? with
    | some b =>
      if b = Byte.star then some (.names .orAll)
      else if b = Byte.plus then some (.names .nonempty)
      else if b = Byte.comma then some (.names .optional)
      else some .name
    | none => some .name
  else none

/-- The kind of hole `index` after a chunk that ends in `opener` and before the chunk `next`. -/
def find (index : Nat) (opener : Option UInt8) (next : Bytes) : Except Error Hole :=
  let unenclosed := if next.head? = some Byte.dot then .qualifier else .bare
  match opener with
  | some b =>
    if isOpener b then
      match enclosed? b next with
      | some hole => .ok hole
      | none => .error (.enclosure index b next.head?)
    else .ok unenclosed
  | none => .ok unenclosed

end Hole

end SqlTemplate
