import SqlTemplate.Fragment

/-!
# Pages

Which rows of a result are wanted: at most so many, after leaving out so many.
-/

namespace SqlTemplate

structure Page where
  limit : Option UInt64
  offset : Option UInt64
deriving DecidableEq, Repr

namespace Page

/-- Page `current`, counted from zero, of pages with `size` rows. An offset beyond the largest
number stops there. -/
def numbered (current size : UInt64) : Page where
  limit := some size
  offset := some (UInt64.ofNat (min (current.toNat * size.toNat) (UInt64.size - 1)))

def isEmpty (p : Page) : Bool := p.limit.isNone && p.offset.isNone

/-- The clause of a page that is not empty. Where an offset needs a limit, the largest one stands
for none. -/
def clause (family : Family) (p : Page) : String :=
  match family, p.limit, p.offset with
  | .mssql, none, offset => s!" OFFSET {offset.getD 0} ROWS"
  | .mssql, some limit, offset => s!" OFFSET {offset.getD 0} ROWS FETCH FIRST {limit} ROWS ONLY"
  | _, some limit, some offset => s!" LIMIT {limit} OFFSET {offset}"
  | _, some limit, none => s!" LIMIT {limit}"
  | .mysql, none, some offset => s!" LIMIT 18446744073709551615 OFFSET {offset}"
  | .sqlite, none, some offset => s!" LIMIT -1 OFFSET {offset}"
  | .postgres, none, some offset => s!" OFFSET {offset}"
  | _, none, none => ""

/-- Appends the clause of a page. Without an order the rows of a page are arbitrary, which only a
dialect in only-mode accepts. -/
def push (p : Page) (dialect : Dialect) (isOrdered : Bool) (f : Fragment) :
    Except Error Fragment :=
  if p.isEmpty then .ok f
  else if !isOrdered && !dialect.isOnly then .error (.unsupported .unorderedPage dialect)
  else
    let f :=
      if !isOrdered && dialect.family = .mssql then f.pushSql " ORDER BY (SELECT NULL)" else f
    .ok (f.pushSql (p.clause dialect.family))

end Page

end SqlTemplate
