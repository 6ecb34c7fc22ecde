import SqlTemplate.Statement.Basic

/-!
# Updates and deletions

How a joined statement changes the rows of its own table is where the families differ most. Where
the changed table cannot be joined itself, the first table joined to it becomes the source and its
condition moves among the filters; if that join must keep rows without a match, the table is joined
once more, under a second alias, and the two are matched row by row.
-/

namespace SqlTemplate.Statement

/-- Appends that two aliases of one table name the same row. -/
def pushSameRow (family : Family) (subject base : String) (f : Fragment) : Fragment :=
  let column := if family = .postgres then ".ctid" else ".rowid"
  (((((f.pushName subject).pushSql column).pushSql " = ").pushName base).pushSql column)

def pushAssignments (set : Value) (f : Fragment) : Fragment :=
  ((f.pushSql "\x7b").pushParam set).pushSql "\x7d"

/-- Appends assignments to columns under an alias. -/
def pushQualifiedAssignments (base : String) (set : Value) (f : Fragment) : Fragment :=
  pushAssignments set (f.pushQualifier (some base))

/-- An update of a table under its alias, from the first joined table on. -/
def updateFrom (q : Statement) (set : Value) (base : String) (f : Fragment) :
    Except Error Fragment :=
  match q.joins with
  | [] => .error (.misuse .noJoin)
  | first :: rest =>
    match first.kind with
    | .left => do
      let subject ← q.subjectAlias base
      let f := (f.pushSql "UPDATE ").pushTable q.table (some subject)
      let f := (pushAssignments set (f.pushSql " SET ")).pushSql " FROM "
      let f := (f.pushTable q.table (some base)).pushJoins q.joins
      return pushSameRow q.settings.family subject base (f.pushConjunction true)
    | .inner =>
      let f := (f.pushSql "UPDATE ").pushTable q.table (some base)
      let f := (pushAssignments set (f.pushSql " SET ")).pushSql " FROM "
      let f := (f.pushSource first).pushJoins rest
      .ok ((f.pushConjunction true).pushCondition none first.condition)

def updateFragment (q : Statement) (set : Value) : Except Error Fragment := do
  let f := Fragment.empty q.settings
  match ← q.baseAlias with
  | none =>
    let f := (f.pushSql "UPDATE ").pushTable q.table none
    return (pushAssignments set (f.pushSql " SET ")).pushFilters none true q.filters
  | some base =>
    match q.settings.family with
    | .mysql =>
      let f := ((f.pushSql "UPDATE ").pushTable q.table (some base)).pushJoins q.joins
      let f := pushQualifiedAssignments base set (f.pushSql " SET ")
      return f.pushFilters (some base) true q.filters
    | .mssql =>
      let f := (f.pushSql "UPDATE ").pushName base
      let f := (pushQualifiedAssignments base set (f.pushSql " SET ")).pushSql " FROM "
      let f := (f.pushTable q.table (some base)).pushJoins q.joins
      return f.pushFilters (some base) true q.filters
    | .postgres | .sqlite =>
      return (← q.updateFrom set base f).pushFilters (some base) false q.filters

/-- A deletion that uses the joined tables from the first on. -/
def deleteUsing (q : Statement) (base : String) (f : Fragment) : Except Error Fragment :=
  match q.joins with
  | [] => .error (.misuse .noJoin)
  | first :: rest =>
    match first.kind with
    | .left => do
      let subject ← q.subjectAlias base
      let f := ((f.pushSql "DELETE FROM ").pushTable q.table (some subject)).pushSql " USING "
      let f := (f.pushTable q.table (some base)).pushJoins q.joins
      return pushSameRow .postgres subject base (f.pushConjunction true)
    | .inner =>
      let f := ((f.pushSql "DELETE FROM ").pushTable q.table (some base)).pushSql " USING "
      let f := (f.pushSource first).pushJoins rest
      .ok ((f.pushConjunction true).pushCondition none first.condition)

def deleteFragment (q : Statement) : Except Error Fragment := do
  let f := Fragment.empty q.settings
  match ← q.baseAlias with
  | none =>
    return ((f.pushSql "DELETE FROM ").pushTable q.table none).pushFilters none true q.filters
  | some base =>
    match q.settings.family with
    | .mysql | .mssql =>
      let f := ((f.pushSql "DELETE ").pushName base).pushSql " FROM "
      let f := (f.pushTable q.table (some base)).pushJoins q.joins
      return f.pushFilters (some base) true q.filters
    | .postgres => return (← q.deleteUsing base f).pushFilters (some base) false q.filters
    | .sqlite =>
      let f := (f.pushSql "DELETE FROM ").pushTable q.table none
      let f := ((f.pushSql " WHERE rowid IN (SELECT ").pushName base).pushSql ".rowid FROM "
      let f := (f.pushTable q.table (some base)).pushJoins q.joins
      return (f.pushFilters (some base) true q.filters).pushSql ")"

def truncateFragment (q : Statement) : Fragment :=
  let verb := if q.settings.family = .sqlite then "DELETE FROM " else "TRUNCATE TABLE "
  ((Fragment.empty q.settings).pushSql verb).pushTable q.table none

end SqlTemplate.Statement
