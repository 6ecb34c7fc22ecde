import SqlTemplate.Error

/-!
# Names

Tables, columns and aliases. A name is a sequence of segments separated by dots; each segment is
written between the quotes of the dialect, with a quote inside it doubled, and a lone `*` stays
bare.
-/

namespace SqlTemplate.Name

/-! ### Quoting -/

/-- A segment between quotes. -/
def enclose (quote : UInt8) (segment : Bytes) : Bytes :=
  quote :: doubled quote segment ++ [quote]

def writeSegment (quote : UInt8) (segment : Bytes) : Bytes :=
  if segment = [Byte.star] then segment else enclose quote segment

def segments (name : Bytes) : List Bytes := name.splitOn Byte.dot

/-- The segments of a name, quoted and joined by dots. -/
def writeDotted (quote : UInt8) (name : String) : Bytes :=
  [Byte.dot].intercalate ((segments (utf8 name)).map (writeSegment quote))

/-- What a qualifier puts before a name: nothing if it is absent or empty. -/
def lead (quote : UInt8) : Option String → Bytes
  | none => []
  | some qualifier => if qualifier.isEmpty then [] else writeDotted quote qualifier ++ [Byte.dot]

/-- A name under an optional qualifier. -/
def write (quote : UInt8) (qualifier : Option String) (name : String) : Bytes :=
  lead quote qualifier ++ writeDotted quote name

/-! ### Aliases -/

/-- The names a statement may choose for its own table when it is joined, in order. -/
def baseAliases : List String := ["b", "base", "base_table", "_base_table"]

/-- The names a statement may choose for the rows it changes in a join with its own table. -/
def subjectAliases : List String := ["subj", "subject", "subj_table", "_subj_table"]

/-- The last name of each chain is kept free for the statement. -/
def isReserved (name : String) : Bool := name == "_base_table" || name == "_subj_table"

def checkReserved (name : String) : Except Error Unit :=
  if isReserved name then .error (.reservedAlias name) else .ok ()

/-- The first name of a chain that is not taken. -/
def pickAlias (chain : List String) (taken : String → Bool) : Except Error String :=
  match chain.find? fun name => !taken name with
  | some name => .ok name
  | none => .error (.misuse (.noFreeAlias chain))

end SqlTemplate.Name
