import SqlTemplate.Number.Binary64

/-!
# The fewest digits that read back

A decimal reads back to a binary number when it lies among the reals that round to it: between the
midpoints to the two neighbours, the midpoints themselves included exactly when the mantissa is
even. `shortest` tries one, two, three digits and so on. On each grid only the two neighbours of the
value can be closest, so the first grid with a hit gives the fewest digits and, of two hits, the
closer is taken.
-/

namespace SqlTemplate

/-- The number `digits * 10 ^ exponent`. -/
structure Decimal where
  digits : Nat
  exponent : Int
deriving DecidableEq, Repr

/-- Which of two equally close decimals is taken. -/
inductive Tie where
  | toEven
  | up
deriving DecidableEq, Repr

namespace Decimal

/-- The power of a number for an exponent that is not negative, and one for any other: a negative
power is a positive one on the other side of a comparison. -/
def power (base : Nat) (exponent : Int) : Nat := Nat.pow base exponent.toNat

/-- Whether `10 ^ k` is above the number. -/
def isBelowPower (x : Scaled) (k : Int) : Bool :=
  x.mantissa * power 2 x.exponent * power 10 (-k) < power 10 k * power 2 (-x.exponent)

/-- The least `k` with the number below `10 ^ k`: the position of its leading digit. -/
def scale (x : Scaled) : Int :=
  let estimate := ((x.mantissa.log2 : Int) + x.exponent) * 30103 / 100000
  if isBelowPower x estimate then estimate
  else if isBelowPower x (estimate + 1) then estimate + 1
  else estimate + 2

/-- One grid of decimals: a candidate `c` stands for `c * step`, the number for
`mantissa * unit`. -/
structure Grid where
  step : Nat
  unit : Nat

def Grid.of (x : Scaled) (exponent : Int) : Grid where
  step := power 10 exponent * power 2 (-x.exponent)
  unit := power 2 x.exponent * power 10 (-exponent)

/-- Whether the candidate lies among the reals that round to the number. -/
def Grid.readsBack (g : Grid) (x : Scaled) (candidate : Nat) : Bool :=
  let place := 4 * (candidate * g.step)
  let centre := 4 * (x.mantissa * g.unit)
  let low := centre - (if x.narrowBelow then g.unit else 2 * g.unit)
  let high := centre + 2 * g.unit
  if x.mantissa % 2 == 0 then low ≤ place && place ≤ high else low < place && place < high

/-- The closest candidate of the grid that reads back, if any does. -/
def Grid.closest? (g : Grid) (tie : Tie) (x : Scaled) : Option Nat :=
  let value := x.mantissa * g.unit
  let below := value / g.step
  match g.readsBack x below, g.readsBack x (below + 1) with
  | false, false => none
  | true, false => some below
  | false, true => some (below + 1)
  | true, true =>
    match compare (2 * value) ((2 * below + 1) * g.step), tie with
    | .lt, _ => some below
    | .gt, _ => some (below + 1)
    | .eq, .up => some (below + 1)
    | .eq, .toEven => some (if below % 2 == 0 then below else below + 1)

/-- Moves trailing zeros of the digits, at most `fuel` of them, into the exponent. -/
def strip : Nat → Decimal → Decimal
  | 0, d => d
  | fuel + 1, d =>
    if d.digits % 10 == 0 && d.digits != 0 then strip fuel ⟨d.digits / 10, d.exponent + 1⟩ else d

/-- The number itself, to its last digit. -/
def exact (x : Scaled) : Decimal :=
  if 0 ≤ x.exponent then ⟨x.mantissa * power 2 x.exponent, 0⟩
  else ⟨x.mantissa * power 5 (-x.exponent), x.exponent⟩

/-- The decimal of fewest digits that reads back to a positive number. Seventeen digits are enough
for every binary64 number. -/
def shortest (tie : Tie) (x : Scaled) : Decimal :=
  let top := scale x
  let found := (List.range 17).findSome? fun (n : Nat) =>
    let exponent : Int := top - (n + 1)
    ((Grid.of x exponent).closest? tie x).map fun digits => (⟨digits, exponent⟩ : Decimal)
  strip 20 (found.getD (exact x))

end Decimal

end SqlTemplate
