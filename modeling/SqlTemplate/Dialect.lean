import SqlTemplate.Bytes

/-!
# Target dialects

A statement is written for one of four database families. In its portable mode a dialect keeps to
what all families understand; in its only-mode it also uses what its own family alone offers.
-/

namespace SqlTemplate

inductive Family where
  | mysql
  | postgres
  | sqlite
  | mssql
deriving DecidableEq, Repr

structure Dialect where
  family : Family
  isOnly : Bool
deriving DecidableEq, Repr

namespace Family

def name : Family → String
  | .mysql => "mysql"
  | .postgres => "postgres"
  | .sqlite => "sqlite"
  | .mssql => "mssql"

/-- The name in a description of settings. -/
def title : Family → String
  | .mysql => "MySql"
  | .postgres => "Postgres"
  | .sqlite => "Sqlite"
  | .mssql => "MsSql"

/-- Whether string literals escape with a backslash unless told otherwise. -/
def escapesBackslash : Family → Bool
  | .mysql => true
  | _ => false

/-- The quote that encloses identifiers. -/
def nameQuote : Family → UInt8
  | .mysql => Byte.backtick
  | _ => Byte.doubleQuote

end Family

namespace Dialect

def mysql : Dialect := ⟨.mysql, false⟩
def mysqlOnly : Dialect := ⟨.mysql, true⟩
def postgres : Dialect := ⟨.postgres, false⟩
def postgresOnly : Dialect := ⟨.postgres, true⟩
def sqlite : Dialect := ⟨.sqlite, false⟩
def sqliteOnly : Dialect := ⟨.sqlite, true⟩
def mssql : Dialect := ⟨.mssql, false⟩
def mssqlOnly : Dialect := ⟨.mssql, true⟩

def all : List Dialect :=
  [mysql, mysqlOnly, postgres, postgresOnly, sqlite, sqliteOnly, mssql, mssqlOnly]

/-- The dialect of the same family that may use the family's own syntax. -/
def only (d : Dialect) : Dialect := { d with isOnly := true }

def name (d : Dialect) : String := d.family.name ++ if d.isOnly then "_only" else ""

def title (d : Dialect) : String := d.family.title ++ if d.isOnly then "Only" else ""

def ofName? (name : String) : Option Dialect := all.find? fun d => d.name == name

end Dialect

end SqlTemplate
