import SqlTemplate.Render
import SqlTemplate.Statement.Change
import SqlTemplate.Statement.Insert
import SqlTemplate.Statement.Query

/-!
# Building statements

Turns the staged operation of a statement into a fragment, and runs the calls that a statement
answers to one after the other.
-/

namespace SqlTemplate

namespace Statement

/-- The fragment of an operation on the statement as it stands. -/
def fragment (q : Statement) : Operation → Except Error Fragment
  | .select what => q.selectFragment what
  | .insert rows conflict => q.insertFragment rows conflict
  | .insertFrom columns source => .ok (q.insertFromFragment columns source)
  | .update set => q.updateFragment set
  | .delete => q.deleteFragment
  | .truncate => .ok q.truncateFragment

/-- The fragment of the staged operation, and the statement without it. -/
def build (q : Statement) : Except Error (Fragment × Statement) := do
  match q.staged with
  | none => throw (.misuse .nothingStaged)
  | some operation => return (← q.fragment operation, { q with staged := none })

/-- The calls that a statement answers to. -/
inductive Call where
  | join (kind : JoinKind) (table aliasName : String) (condition : Value)
  | filter (condition : Value)
  | groupBy (columns : List String) (having : Option Value)
  | stage (operation : Operation)
  | build
  | toSql

/-- What a call that succeeds gives back. -/
inductive Reply where
  | done
  | built (f : Fragment)
  | text (sql : String)

/-- Keeps the statement of a step that succeeds, and `q` otherwise. -/
private def advance (q : Statement) : Except Error Statement → Except Error Reply × Statement
  | .ok changed => (.ok .done, changed)
  | .error e => (.error e, q)

/-- Runs one call. The staged operation is gone once it is built, even if its text cannot be
rendered. -/
def perform (q : Statement) : Call → Except Error Reply × Statement
  | .join kind table aliasName condition => q.advance (q.join kind table aliasName condition)
  | .filter condition => q.advance (q.filter condition)
  | .groupBy columns having => q.advance (q.groupBy columns having)
  | .stage operation => q.advance (q.stage operation)
  | .build =>
    match q.build with
    | .ok (f, changed) => (.ok (.built f), changed)
    | .error e => (.error e, q)
  | .toSql =>
    match q.build with
    | .ok (f, changed) => (f.toSql.map .text, changed)
    | .error e => (.error e, q)

end Statement

end SqlTemplate
