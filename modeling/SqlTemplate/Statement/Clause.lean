import SqlTemplate.Fragment

/-!
# Clauses

The parts that statements are put together from: tables with their aliases, joins, conditions and
lists of items. Each is appended to a fragment as literal text and holes.
-/

namespace SqlTemplate

/-- A condition: a text or a fragment in parentheses, or a map of columns to values. -/
inductive Condition where
  | expression (value : Value)
  | pairs (value : Value)

namespace Condition

/-- The condition that a value gives in a clause. -/
def ofValue (clause : Clause) (value : Value) : Except Error Condition :=
  match value with
  | .str _ | .fragment _ => .ok (.expression value)
  | .map _ =>
    if clause.takesMap then .ok (.pairs value)
    else .error (.misuse (.conditionKind clause value.typeName))
  | _ => .error (.misuse (.conditionKind clause value.typeName))

end Condition

namespace Fragment

/-- Appends a hole for a qualifier and the dot after it. -/
def pushQualifier (f : Fragment) : Option String → Fragment
  | none => f
  | some qualifier => (f.pushParam (.str qualifier)).pushSql "."

def pushCondition (f : Fragment) (qualifier : Option String) : Condition → Fragment
  | .expression value =>
    (((f.pushQualifier qualifier).pushSql "(").pushParam value).pushSql ")"
  | .pairs value => (((f.pushQualifier qualifier).pushSql "\x7b").pushParam value).pushSql "&"

def pushName (f : Fragment) (name : String) : Fragment :=
  ((f.pushSql "\"").pushParam (.str name)).pushSql "\""

def pushTable (f : Fragment) (table : String) (aliasName : Option String) : Fragment :=
  let f := f.pushName table
  match aliasName with
  | none => f
  | some aliasName => (f.pushSql " AS ").pushName aliasName

/-- Appends items with commas between them, each under the qualifier. -/
def pushItems (f : Fragment) (qualifier : Option String) (later : Bool) : List String → Fragment
  | [] => f
  | item :: rest =>
    let f := if later then f.pushSql ", " else f
    ((f.pushQualifier qualifier).pushParam (.str item)).pushItems qualifier true rest

/-- Appends the word before a condition: the first one opens the clause. -/
def pushConjunction (f : Fragment) (isFirst : Bool) : Fragment :=
  f.pushSql (if isFirst then " WHERE " else " AND ")

/-- Appends conditions that must all hold. `isFirst` says whether none stands before them. -/
def pushFilters (f : Fragment) (qualifier : Option String) (isFirst : Bool) :
    List Condition → Fragment
  | [] => f
  | condition :: rest =>
    ((f.pushConjunction isFirst).pushCondition qualifier condition).pushFilters qualifier false rest

end Fragment

inductive JoinKind where
  | inner
  | left
deriving DecidableEq, Repr

structure Join where
  kind : JoinKind
  table : String
  aliasName : Option String
  condition : Condition

namespace Join

/-- The name by which the statement knows the joined table. -/
def name (j : Join) : String := j.aliasName.getD j.table

def keyword (j : Join) : String :=
  match j.kind with
  | .inner => " JOIN "
  | .left => " LEFT JOIN "

end Join

namespace Fragment

/-- Appends a joined table without its condition. -/
def pushSource (f : Fragment) (j : Join) : Fragment := f.pushTable j.table j.aliasName

def pushJoins (f : Fragment) : List Join → Fragment
  | [] => f
  | j :: rest =>
    ((((f.pushSql j.keyword).pushSource j).pushSql " ON ").pushCondition none j.condition).pushJoins
      rest

end Fragment

structure Grouping where
  columns : List String
  having : Option Condition

end SqlTemplate
