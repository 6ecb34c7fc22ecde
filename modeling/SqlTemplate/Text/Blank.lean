/-!
# White space

The characters with the Unicode property White_Space, which separate the words of a list.
-/

namespace SqlTemplate.Text

/-- Closed ranges of code points, ascending and apart. -/
def blankRanges : List (Nat × Nat) :=
  [(0x09, 0x0D), (0x20, 0x20), (0x85, 0x85), (0xA0, 0xA0), (0x1680, 0x1680), (0x2000, 0x200A),
    (0x2028, 0x2029), (0x202F, 0x202F), (0x205F, 0x205F), (0x3000, 0x3000)]

def isBlank (c : Char) : Bool :=
  blankRanges.any fun range => range.1 ≤ c.toNat && c.toNat ≤ range.2

/-- The property holds of 25 characters. -/
example : blankRanges.foldl (fun count range => count + (range.2 + 1 - range.1)) 0 = 25 := by
  decide

end SqlTemplate.Text
