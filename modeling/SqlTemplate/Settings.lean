import SqlTemplate.Dialect
import SqlTemplate.Text.Quoted
import SqlTemplate.WordList

/-!
# Settings

The policy under which a fragment is rendered: its dialect, the words that may stand bare, how
strings escape, how long a value may be inline, and how table names are mapped.
-/

namespace SqlTemplate

structure Settings where
  dialect : Dialect
  idents : WordList
  functions : WordList
  /-- Quote identifiers also where they may stand bare. -/
  alwaysQuote : Bool
  noBackslashEscapes : Bool
  /-- The most bytes of a string or byte value that are written inline when a sink is at hand. -/
  inlineLimit : Nat
  mapTable? : Option (String → String)

namespace Settings

/-- The defaults of a dialect, with word lists read from definitions where one is given. -/
def withWords (dialect : Dialect) (idents functions : Option String) : Settings where
  dialect := dialect
  idents := (idents.map WordList.parse).getD WordList.keywords
  functions := (functions.map WordList.parse).getD WordList.commonFunctions
  alwaysQuote := false
  noBackslashEscapes := !dialect.family.escapesBackslash
  inlineLimit := 1024
  mapTable? := none

def ofDialect (dialect : Dialect) : Settings := withWords dialect none none

/-- Turns backslash escapes on or off, in a family that has them. -/
def setNoBackslashEscapes (s : Settings) (value : Bool) : Settings :=
  if s.dialect.family.escapesBackslash then { s with noBackslashEscapes := value } else s

def family (s : Settings) : Family := s.dialect.family

def usesBackslashEscapes (s : Settings) : Bool := !s.noBackslashEscapes

def nameQuote (s : Settings) : UInt8 := s.family.nameQuote

def mapTable (s : Settings) (name : String) : String :=
  match s.mapTable? with
  | some mapper => mapper name
  | none => name

/-- The condition that an empty conjunction or disjunction stands for. -/
def identityText (s : Settings) (holds : Bool) : String :=
  match s.family, holds with
  | .mssql, true => "1=1"
  | .mssql, false => "1=0"
  | _, true => "TRUE"
  | _, false => "FALSE"

/-- How deep lists may nest: row values need a dialect that knows them. -/
def maxListDepth (s : Settings) : Nat :=
  if s.family = .mssql then 1 else if s.dialect.isOnly then 2 else 1

private def boolText (b : Bool) : String := if b then "true" else "false"

/-- A one-line description of the settings. -/
def describe (s : Settings) : String :=
  "Settings \x7b dialect: " ++ s.dialect.title ++ ", idents: " ++ Text.quoted s.idents.definition ++
  ", functions: " ++ Text.quoted s.functions.definition ++ ", always_quote: " ++
  boolText s.alwaysQuote ++ ", no_backslash_escapes: " ++ boolText s.noBackslashEscapes ++
  ", inline_limit: " ++ toString s.inlineLimit ++ ", table_mapper: " ++
  boolText s.mapTable?.isSome ++ " \x7d"

end Settings

end SqlTemplate
