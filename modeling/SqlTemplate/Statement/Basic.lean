import SqlTemplate.Name
import SqlTemplate.Statement.Clause
import SqlTemplate.Statement.Operation

/-!
# Statements

A statement on one table: its joins, conditions and grouping, in this order, and then one staged
operation. A step that is refused leaves the statement as it was.
-/

namespace SqlTemplate

structure Statement where
  settings : Settings
  table : String
  joins : List Join
  filters : List Condition
  grouping : Option Grouping
  staged : Option Operation

namespace Statement

/-- A statement on the table that the settings map `name` to. -/
def ofTable (s : Settings) (name : String) : Except Error Statement := do
  Name.checkReserved name
  if name.isEmpty then throw (.misuse .emptyTable)
  return ⟨s, s.mapTable name, [], [], none, none⟩

def isJoined (q : Statement) (name : String) : Bool := q.joins.any fun j => j.name == name

/-- The alias of the statement's own table, which it has when it is joined. -/
def baseAlias (q : Statement) : Except Error (Option String) :=
  if q.joins.isEmpty then .ok none else some <$> Name.pickAlias Name.baseAliases q.isJoined

/-- The alias of the rows to be changed in a join of the table with itself. -/
def subjectAlias (q : Statement) (base : String) : Except Error String :=
  Name.pickAlias Name.subjectAliases fun name => name == base || q.isJoined name

def checkUnstaged (q : Statement) : Except Error Unit :=
  match q.staged with
  | some operation => .error (.misuse (.staged operation.name))
  | none => .ok ()

/-! ### Clauses -/

def join (q : Statement) (kind : JoinKind) (table aliasName : String) (condition : Value) :
    Except Error Statement := do
  q.checkUnstaged
  if !q.filters.isEmpty || q.grouping.isSome then throw (.misuse .lateJoin)
  Name.checkReserved table
  Name.checkReserved aliasName
  if table.isEmpty then throw (.misuse .emptyJoinTable)
  let j : Join := {
    kind
    table := q.settings.mapTable table
    aliasName := if aliasName.isEmpty then none else some aliasName
    condition := ← Condition.ofValue .join condition }
  if q.isJoined j.name then throw (.misuse (.alreadyJoined j.name))
  return { q with joins := q.joins ++ [j] }

def filter (q : Statement) (condition : Value) : Except Error Statement := do
  q.checkUnstaged
  if q.grouping.isSome then throw (.misuse .lateFilter)
  return { q with filters := q.filters ++ [← Condition.ofValue .filter condition] }

def groupBy (q : Statement) (columns : List String) (having : Option Value) :
    Except Error Statement := do
  q.checkUnstaged
  if q.grouping.isSome then throw (.misuse .groupTwice)
  if columns.isEmpty then throw (.misuse .emptyGroup)
  return { q with grouping := some ⟨columns, ← having.mapM (Condition.ofValue .having)⟩ }

/-! ### Staging -/

/-- Whether the clauses of a statement suit an operation. -/
def checkSuits (q : Statement) (operation : Operation) : Except Error Unit :=
  match operation with
  | .select _ => .ok ()
  | .update _ | .delete =>
    if q.grouping.isSome then .error (.misuse (.noGrouping operation.name)) else .ok ()
  | .insert _ _ | .insertFrom _ _ | .truncate =>
    if !q.joins.isEmpty || !q.filters.isEmpty || q.grouping.isSome then
      .error (.misuse (.noClauses operation.name))
    else .ok ()

def stage (q : Statement) (operation : Operation) : Except Error Statement := do
  q.checkUnstaged
  q.checkSuits operation
  return { q with staged := some operation }

end Statement

end SqlTemplate
