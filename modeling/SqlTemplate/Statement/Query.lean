import SqlTemplate.Statement.Basic

/-!
# Queries

The clauses of a `SELECT` in their order.
-/

namespace SqlTemplate.Statement

def pushGrouping (base : Option String) (f : Fragment) : Option Grouping → Fragment
  | none => f
  | some grouping =>
    let f := (f.pushSql " GROUP BY ").pushItems base false grouping.columns
    match grouping.having with
    | none => f
    | some condition => (f.pushSql " HAVING ").pushCondition base condition

def selectFragment (q : Statement) (what : Select) : Except Error Fragment := do
  let base ← q.baseAlias
  let verb := if what.isDistinct then "SELECT DISTINCT " else "SELECT "
  let f := (Fragment.empty q.settings).pushSql verb
  let f := if what.columns.isEmpty then f.pushSql "*" else f.pushItems base false what.columns
  let f := ((f.pushSql " FROM ").pushTable q.table base).pushJoins q.joins
  let f := pushGrouping base (f.pushFilters base true q.filters) q.grouping
  let isOrdered := !what.orderBy.isEmpty
  let f := if isOrdered then (f.pushSql " ORDER BY ").pushItems base false what.orderBy else f
  what.page.push q.settings.dialect isOrdered f

end SqlTemplate.Statement
