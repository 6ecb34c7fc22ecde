import SqlTemplate.Number.Decimal

/-!
# Decimal text

How the digits of a number are laid out. A format decides for which exponents of the leading digit
the text is positional, whether a whole number keeps a fractional zero, and which of two equally
close decimals is written; otherwise the text is scientific with a signed exponent.
-/

namespace SqlTemplate

structure Layout where
  /-- Whether a number with this exponent of its leading digit is written positionally. -/
  isPositional : Int → Bool
  /-- Whole numbers end in `.0`. -/
  pointZero : Bool
  tie : Tie

namespace Layout

def zeros (n : Nat) : List Char := List.replicate n '0'

/-- Digits with a decimal point `exponent` places to the right of the last one. -/
def positional (pointZero : Bool) (digits : List Char) (exponent : Int) : List Char :=
  if 0 ≤ exponent then digits ++ zeros exponent.toNat ++ (if pointZero then ['.', '0'] else [])
  else
    let whole := (digits.length : Int) + exponent
    if 0 < whole then digits.take whole.toNat ++ '.' :: digits.drop whole.toNat
    else '0' :: '.' :: zeros (-whole).toNat ++ digits

/-- Digits with the point after the first, and the exponent of the first. -/
def scientific (digits : List Char) (lead : Int) : List Char :=
  digits.take 1 ++ (if digits.length ≤ 1 then [] else '.' :: digits.drop 1)
    ++ 'e' :: (if lead < 0 then '-' else '+') :: Nat.toDigits 10 lead.natAbs

/-- The text of a decimal. -/
def decimalText (format : Layout) (d : Decimal) : List Char :=
  let digits := Nat.toDigits 10 d.digits
  let lead := (digits.length : Int) + d.exponent - 1
  if format.isPositional lead then positional format.pointZero digits d.exponent
  else scientific digits lead

/-- The text of a finite number. -/
def text (format : Layout) (x : Binary64) : List Char :=
  let sign := if x.isNegative then ['-'] else []
  let decimal := if x.isZero then ⟨0, 0⟩ else Decimal.shortest format.tie x.magnitude
  sign ++ format.decimalText decimal

end Layout

end SqlTemplate
