import SqlTemplate.Statement.Basic

/-!
# Insertions

Rows given as values, with what is done about conflicts, and rows given by a query.
-/

namespace SqlTemplate.Statement

/-- The keys of the first row. -/
def firstRowColumns : Value → List String
  | .map entries => Keyed.keys entries
  | .list (.map entries :: _) => Keyed.keys entries
  | _ => []

/-- Appends `column` set to its incoming value, for each column. -/
def pushUpdates (family : Family) (later : Bool) (f : Fragment) : List String → Fragment
  | [] => f
  | column :: rest =>
    let f := (if later then f.pushSql ", " else f).pushName column
    let f :=
      if family = .mysql then ((f.pushSql "=VALUES(").pushName column).pushSql ")"
      else (f.pushSql "=excluded.").pushName column
    pushUpdates family true f rest

def namesValue (names : List String) : Value := .list (names.map Value.str)

/-- Appends what happens to a row that collides with a unique key. -/
def pushConflict (dialect : Dialect) (rows : Value) (f : Fragment) :
    OnConflict → Except Error Fragment
  | .fail => .ok f
  | .doNothing =>
    match dialect.family with
    | .mssql => .error (.unsupported .conflictClause dialect)
    | .mysql =>
      match firstRowColumns rows with
      | [] => .error .emptyRows
      | first :: _ =>
        .ok ((((f.pushSql " ON DUPLICATE KEY UPDATE ").pushName first).pushSql "=").pushName first)
    | _ => .ok (f.pushSql " ON CONFLICT DO NOTHING")
  | .doUpdate target columns => do
    if dialect.family = .mssql then throw (.unsupported .conflictClause dialect)
    if target.isEmpty then
      if dialect.family ≠ .mysql then throw (.misuse .noConflictTarget)
      if !dialect.isOnly then throw (.unsupported .untargetedUpdate dialect)
    let columns :=
      if columns.isEmpty then (firstRowColumns rows).filter fun column => !target.contains column
      else columns
    if columns.isEmpty then throw (.misuse .noConflictColumn)
    let f :=
      if dialect.family = .mysql then f.pushSql " ON DUPLICATE KEY UPDATE "
      else
        ((f.pushSql " ON CONFLICT (\"").pushParam (namesValue target)).pushSql
          "\"+) DO UPDATE SET "
    return pushUpdates dialect.family false f columns

def insertFragment (q : Statement) (rows : Value) (conflict : OnConflict) :
    Except Error Fragment :=
  let f := ((Fragment.empty q.settings).pushSql "INSERT INTO ").pushTable q.table none
  let f := ((f.pushSql " <").pushParam rows).pushSql ">"
  pushConflict q.settings.dialect rows f conflict

def insertFromFragment (q : Statement) (columns : List String) (source : Fragment) : Fragment :=
  let f := ((Fragment.empty q.settings).pushSql "INSERT INTO ").pushTable q.table none
  let f :=
    if columns.isEmpty then f
    else ((f.pushSql " (\"").pushParam (namesValue columns)).pushSql "\"+)"
  (f.pushSql " ").pushParam (.fragment source)

end SqlTemplate.Statement
