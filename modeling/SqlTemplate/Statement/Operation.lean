import SqlTemplate.Page

/-!
# Operations

What a statement does with its table.
-/

namespace SqlTemplate

structure Select where
  columns : List String
  isDistinct : Bool
  orderBy : List String
  page : Page

/-- What an insertion does with a row that collides with a unique key. -/
inductive OnConflict where
  | fail
  | doNothing
  | doUpdate (target columns : List String)
deriving DecidableEq, Repr

inductive Operation where
  | select (what : Select)
  | insert (rows : Value) (conflict : OnConflict)
  | insertFrom (columns : List String) (source : Fragment)
  | update (set : Value)
  | delete
  | truncate

def Operation.name : Operation → String
  | .select _ => "SELECT"
  | .insert _ _ => "INSERT"
  | .insertFrom _ _ => "INSERT ... SELECT"
  | .update _ => "UPDATE"
  | .delete => "DELETE"
  | .truncate => "TRUNCATE"

end SqlTemplate
