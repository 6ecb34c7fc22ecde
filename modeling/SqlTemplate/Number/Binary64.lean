/-!
# Binary64 numbers

A floating-point value is kept as its 64 bits. A finite one is a sign and a natural number times a
power of two, which is all that its decimal text depends on.
-/

namespace SqlTemplate

structure Binary64 where
  bits : UInt64
deriving DecidableEq, Repr

/-- The number `mantissa * 2 ^ exponent`. -/
structure Scaled where
  mantissa : Nat
  exponent : Int
  /-- The gap to the next smaller number is half the gap to the next larger one. -/
  narrowBelow : Bool
deriving DecidableEq, Repr

namespace Binary64

def isNegative (x : Binary64) : Bool := x.bits >>> 63 == 1

def exponentBits (x : Binary64) : Nat := ((x.bits >>> 52) &&& 0x7FF).toNat

def fraction (x : Binary64) : Nat := (x.bits &&& 0xFFFFFFFFFFFFF).toNat

def isFinite (x : Binary64) : Bool := x.exponentBits != 0x7FF

def isZero (x : Binary64) : Bool := x.exponentBits == 0 && x.fraction == 0

/-- The magnitude of a finite value. -/
def magnitude (x : Binary64) : Scaled :=
  if x.exponentBits == 0 then ⟨x.fraction, -1074, false⟩
  else
    ⟨0x10000000000000 + x.fraction, (x.exponentBits : Int) - 1075,
      x.fraction == 0 && x.exponentBits > 1⟩

/-- What a message calls a value that is no number. -/
def specialText (x : Binary64) : String :=
  if x.fraction != 0 then "NaN" else if x.isNegative then "-inf" else "inf"

/-- The value of a binary32 number, given by its bits. A NaN keeps its payload and becomes quiet. -/
def ofBinary32 (bits : UInt32) : Binary64 :=
  let sign : UInt64 := (bits.toUInt64 >>> 31) <<< 63
  let exponent : Nat := ((bits >>> 23) &&& 0xFF).toNat
  let fraction : UInt64 := (bits &&& 0x7FFFFF).toUInt64
  if exponent = 0xFF then
    let quiet : UInt64 := if fraction = 0 then 0 else 0x8000000000000
    ⟨sign ||| (0x7FF0000000000000 : UInt64) ||| (fraction <<< 29) ||| quiet⟩
  else if exponent = 0 then
    if fraction = 0 then ⟨sign⟩
    else
      let top := fraction.toNat.log2
      let shifted := UInt64.ofNat (fraction.toNat <<< (52 - top)) &&& 0xFFFFFFFFFFFFF
      ⟨sign ||| (UInt64.ofNat (top + 874) <<< 52) ||| shifted⟩
  else ⟨sign ||| (UInt64.ofNat (exponent + 896) <<< 52) ||| (fraction <<< 29)⟩

/-- An upper bound for the characters of the positional text: its integral or its leading fractional
digits, plus a fixed allowance for the rest. -/
def widthBound (x : Binary64) : Nat :=
  if x.isZero || !x.isFinite then 24
  else (Float.ofBits x.bits).abs.log10.abs.toUInt64.toNat + 24

end Binary64

end SqlTemplate
