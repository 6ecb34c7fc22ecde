import SqlTemplate.Dialect
import SqlTemplate.Text.Quoted
import SqlTemplate.Text.Utf8

/-!
# Errors

Everything that can be refused, by cause, and the message of each.
-/

namespace SqlTemplate

/-- Why a text is refused as a safe fragment. -/
inductive Rejection where
  | unbalancedParens
  | topLevelComma
  | comment
  | bindPlaceholder
  | forbidden (byte : UInt8)
  | stringPrefix
  | unicodeEscape
  | unterminatedString
  | nulInString
  | unterminatedName
  | nulInName
  | emptyName
  | malformedHex
  | malformedBits
  | malformedNumber
deriving DecidableEq, Repr

def Rejection.message : Rejection → String
  | .unbalancedParens => "unbalanced parentheses"
  | .topLevelComma => "top-level comma in expression"
  | .comment => "comment"
  | .bindPlaceholder => "bind placeholder"
  | .forbidden byte =>
    "character " ++ Text.quotedChar (Char.ofNat byte.toNat) ++ " is not allowed"
  | .stringPrefix => "unsupported string literal prefix"
  | .unicodeEscape => "unicode escape literal"
  | .unterminatedString => "unterminated string literal"
  | .nulInString => "NUL inside string literal"
  | .unterminatedName => "unterminated quoted identifier"
  | .nulInName => "NUL inside quoted identifier"
  | .emptyName => "empty quoted identifier"
  | .malformedHex => "malformed hex literal"
  | .malformedBits => "malformed bit literal"
  | .malformedNumber => "malformed number"

/-- What a hole needs its value to be. -/
inductive Wanted where
  | list
  | rows
  | names
  | nameItem
  | someName
  | pairs
deriving DecidableEq, Repr

def Wanted.context : Wanted → String
  | .list => "list"
  | .rows => "row-set"
  | .names | .nameItem | .someName => "identifier list"
  | .pairs => "key/value set"

def Wanted.expected : Wanted → String
  | .list => "a list"
  | .rows => "a list of maps"
  | .names => "a list of names"
  | .nameItem => "names"
  | .someName => "at least one name"
  | .pairs => "a map"

/-- A condition of a statement, by the clause it belongs to. -/
inductive Clause where
  | join
  | filter
  | having
deriving DecidableEq, Repr

def Clause.name : Clause → String
  | .join => "join condition"
  | .filter => "where condition"
  | .having => "having condition"

/-- Whether the clause also takes a map of columns to values. -/
def Clause.takesMap : Clause → Bool
  | .join => false
  | _ => true

/-- A statement put together in a way that no dialect has. -/
inductive Misuse where
  | emptyTable
  | emptyJoinTable
  | lateJoin
  | lateFilter
  | alreadyJoined (name : String)
  | noJoin
  | groupTwice
  | emptyGroup
  | conditionKind (clause : Clause) (found : String)
  | staged (operation : String)
  | nothingStaged
  | noGrouping (operation : String)
  | noClauses (operation : String)
  | noConflictTarget
  | noConflictColumn
  | noFreeAlias (chain : List String)
deriving DecidableEq, Repr

def Misuse.message : Misuse → String
  | .emptyTable => "table name is empty"
  | .emptyJoinTable => "joined table name is empty"
  | .lateJoin => "joins must come before WHERE and GROUP BY"
  | .lateFilter => "WHERE must come before GROUP BY"
  | .alreadyJoined name => Text.quoted name ++ " is already joined"
  | .noJoin => "statement has no join"
  | .groupTwice => "GROUP BY is already set"
  | .emptyGroup => "GROUP BY needs at least one column"
  | .conditionKind clause found =>
    clause.name ++ " must be a string, a fragment" ++
      (if clause.takesMap then " or a map" else "") ++ "; got " ++ found
  | .staged operation => operation ++ " is staged; build it before changing the statement"
  | .nothingStaged => "no operation staged"
  | .noGrouping operation => operation ++ " does not take GROUP BY"
  | .noClauses operation => operation ++ " does not take joins, WHERE or GROUP BY"
  | .noConflictTarget => "ON CONFLICT DO UPDATE needs a conflict target"
  | .noConflictColumn => "ON CONFLICT DO UPDATE has no column to update"
  | .noFreeAlias chain => "no free alias left in " ++ Text.quotedList chain

/-- What a dialect cannot express. -/
inductive Unsupported where
  | embedding (child : Dialect)
  | conflictClause
  | untargetedUpdate
  | unorderedPage
deriving DecidableEq, Repr

def Unsupported.feature : Unsupported → String
  | .embedding child => "embedding a " ++ child.name ++ " fragment"
  | .conflictClause => "ON CONFLICT"
  | .untargetedUpdate => "ON DUPLICATE KEY UPDATE without a conflict target"
  | .unorderedPage => "LIMIT/OFFSET without ORDER BY"

/-- What to do instead. -/
def Unsupported.hatch (dialect : Dialect) : Unsupported → String
  | .embedding _ => "build the fragment with " ++ dialect.name
  | .conflictClause => "write a MERGE statement with mssql_only"
  | .untargetedUpdate => "pass the target columns or use mysql_only"
  | .unorderedPage => "add an ORDER BY or use " ++ dialect.only.name

inductive Error where
  | chunkCount (chunks params : Nat)
  /-- The hole after parameter `index` is opened by `opener` and not closed accordingly. -/
  | enclosure (index : Nat) (opener : UInt8) (closer : Option UInt8)
  | unsafeText (text : Bytes) (reason : Rejection)
  | wrongShape (wanted : Wanted) (found : String)
  | emptyRows
  | rowShape (row : Nat) (column : String)
  | emptySet
  | listDepth (depth : Nat) (dialect : Dialect)
  | range (number : String)
  | stringify (typeName : String)
  | misuse (cause : Misuse)
  | unsupported (what : Unsupported) (dialect : Dialect)
  | reservedAlias (name : String)
  | invalidUtf8 (fault : Utf8.Fault)
deriving DecidableEq, Repr

private def closerText : Option UInt8 → String
  | none => "None"
  | some byte => "Some(" ++ Text.quotedChar (Char.ofNat byte.toNat) ++ ")"

def Error.message : Error → String
  | .chunkCount chunks params =>
    s!"template has {chunks} literal chunks for {params} parameters, " ++
      "expected exactly one more chunk than parameters"
  | .enclosure index opener closer =>
    s!"inappropriately quoted/enclosed parameter #{index}: opened with `" ++
      String.singleton (Char.ofNat opener.toNat) ++ "` but followed by " ++ closerText closer
  | .unsafeText text reason =>
    "unsafe SQL fragment " ++ Text.quoted (Utf8.lossy text) ++ ": " ++ reason.message
  | .wrongShape wanted found =>
    wanted.context ++ " parameter requires " ++ wanted.expected ++ ", got " ++ found
  | .emptyRows => "row-set parameter has 0 rows"
  | .rowShape row column =>
    s!"row #{row} has column " ++ Text.quoted column ++ " which is not present in the first row"
  | .emptySet => "key/value set parameter is empty"
  | .listDepth depth dialect =>
    s!"list nesting depth {depth} is not supported by " ++ dialect.name
  | .range number => number ++ " is outside the signed 64-bit integer range"
  | .stringify typeName => "cannot stringify value of type " ++ typeName
  | .misuse cause => cause.message
  | .unsupported what dialect =>
    what.feature ++ " is not supported by " ++ dialect.name ++ "; " ++ what.hatch dialect
  | .reservedAlias name => "alias " ++ Text.quoted name ++ " is reserved"
  | .invalidUtf8 fault => "rendered SQL is not valid UTF-8: " ++ fault.message

/-- A computation in two steps that returns has returned from both. -/
theorem bind_eq_ok {ε α β : Type} {first : Except ε α} {second : α → Except ε β} {b : β}
    (h : (first >>= second) = .ok b) : ∃ a, first = .ok a ∧ second a = .ok b := by
  cases first with
  | error e => cases h
  | ok a => exact ⟨a, rfl, h⟩

theorem map_eq_ok {ε α β : Type} {f : α → β} {result : Except ε α} {b : β}
    (h : f <$> result = .ok b) : ∃ a, result = .ok a ∧ f a = b := by
  cases result with
  | error e => cases h
  | ok a => exact ⟨a, rfl, Except.ok.inj h⟩

end SqlTemplate
