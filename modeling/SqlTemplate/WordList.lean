import Std.Data.TreeMap
import SqlTemplate.Bytes
import SqlTemplate.Text.Blank

/-!
# Word lists

A list of the words that may stand bare in a safe text, or, in a blocking list, of those that may
not. Case is ignored for ASCII letters. A lookup compares only the words that share the first two
bytes, the last byte and the length with the word looked for.
-/

namespace SqlTemplate

structure WordList where
  /-- The list names the words that are refused. -/
  isBlocking : Bool
  /-- Upper case, ascending, each word once. -/
  words : List String
  /-- For each key, the places among the words, from zero, of those that have it. -/
  buckets : Std.TreeMap Nat (List Nat)

namespace WordList

def empty : WordList := ⟨false, [], ∅⟩

/-- First, second and last byte in upper case, and the length up to 255, as one number. -/
def bucketKey (word : Bytes) : Nat :=
  let byte (b : Option UInt8) : Nat := (b.map fun b => (Byte.upper b).toNat).getD 0
  byte word[0]? + 256 * (byte word[1]? + 256 * (byte word.getLast? + 256 * min word.length 255))

/-- Puts a word in its place among ascending words, unless it is there. -/
def insertWord (word : String) : List String → List String
  | [] => [word]
  | first :: rest =>
    if word = first then first :: rest
    else if word < first then word :: first :: rest
    else first :: insertWord word rest

/-- Puts the place of a word into the bucket of its key. -/
def addToBucket (buckets : Std.TreeMap Nat (List Nat)) (entry : String × Nat) :
    Std.TreeMap Nat (List Nat) :=
  let key := bucketKey (utf8 entry.1)
  buckets.insert key (buckets.getD key [] ++ [entry.2])

def ofWords (isBlocking : Bool) (words : List String) : WordList :=
  let words := words.foldr insertWord []
  ⟨isBlocking, words, words.zipIdx.foldl addToBucket ∅⟩

/-- The words of a definition: what stands between blanks, in upper case. -/
def wordsOf (body : List Char) : List String :=
  ((body.splitOnP Text.isBlank).filter fun word => !word.isEmpty).map fun word =>
    String.ofList (word.map Char.toUpper)

/-- Reads a definition: words between blanks, after a leading `!` if the list is blocking. -/
def parse (definition : String) : WordList :=
  match definition.toList.dropWhile Text.isBlank with
  | '!' :: body => ofWords true (wordsOf body)
  | body => ofWords false (wordsOf body)

/-- Equality of bytes up to the case of ASCII letters. -/
def sameWord (a b : Bytes) : Bool := a.map Byte.upper == b.map Byte.upper

def contains (list : WordList) (word : Bytes) : Bool :=
  (list.buckets.getD (bucketKey word) []).any fun place =>
    list.words[place]?.any fun entry => sameWord (utf8 entry) word

def allows (list : WordList) (word : Bytes) : Bool := list.contains word != list.isBlocking

/-- The canonical definition of a list. -/
def definition (list : WordList) : String :=
  (if list.isBlocking then "!" else "") ++ " ".intercalate list.words

/-- Keywords that may stand bare in an expression. -/
def keywords : WordList :=
  ofWords false
    ["AND", "ANY", "ALL", "AS", "ASC", "BETWEEN", "BINARY", "BOTH", "BY", "CASE", "COLLATE",
      "CURRENT_DATE", "CURRENT_TIME", "CURRENT_TIMESTAMP", "DESC", "DISTINCT", "DIV", "ELSE",
      "END", "ESCAPE", "EXISTS", "FALSE", "FIRST", "FOLLOWING", "FROM", "GLOB", "ILIKE", "IN",
      "INTERVAL", "IS", "LAST", "LEADING", "LIKE", "MOD", "NOT", "NULL", "NULLS", "OR", "ORDER",
      "OVER", "PARTITION", "PRECEDING", "RANGE", "REGEXP", "ROWS", "SIMILAR", "SOME", "THEN",
      "TO", "TRAILING", "TRUE", "UNBOUNDED", "UNKNOWN", "WHEN", "XOR", "CURRENT", "ROW"]

/-- Functions that may be called by their bare name. -/
def commonFunctions : WordList :=
  ofWords false
    ["ABS", "AVG", "CAST", "CEIL", "CEILING", "CHAR_LENGTH", "COALESCE", "CONCAT", "COUNT",
      "DATE", "DENSE_RANK", "EXTRACT", "FLOOR", "GREATEST", "IFNULL", "ISNULL", "JSON_EXTRACT",
      "LEAST", "LEFT", "LENGTH", "LOWER", "LTRIM", "MAX", "MIN", "NULLIF", "POWER", "RANK",
      "REPLACE", "RIGHT", "ROUND", "ROW_NUMBER", "RTRIM", "SIGN", "SQRT", "SUBSTR", "SUBSTRING",
      "SUM", "TRIM", "UPPER"]

end WordList

end SqlTemplate
