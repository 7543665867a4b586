/-!
# Binary floating-point numbers

A `Double` is the 64-bit pattern of a binary floating-point number.  The pattern is the value: two
patterns are the same `Double` exactly when all bits agree, which keeps `-0.0` apart from `0.0` and
one NaN equal to itself.  The comparison that programs see is `Double.ieeeEq`.

Arithmetic is exact and rounds once.  Every finite magnitude is a fraction of two naturals
(`Double.magnitude`), and `Double.ofRatio` turns a fraction into the nearest double, a tie going to
the even significand.  Nothing here goes through machine floating point, so every step can be
computed with in a proof.
-/

set_option autoImplicit false

namespace PhpRefactor

/-- The bit pattern of a 64-bit floating-point number. -/
structure Double where
  bits : UInt64
  deriving DecidableEq, Repr, Inhabited

namespace Double

/-- The sign bit. -/
def isNegative (d : Double) : Bool := Nat.pow 2 63 ≤ d.bits.toNat

/-- The eleven exponent bits. -/
def exponentField (d : Double) : Nat := d.bits.toNat / Nat.pow 2 52 % Nat.pow 2 11

/-- The fifty-two fraction bits. -/
def fractionField (d : Double) : Nat := d.bits.toNat % Nat.pow 2 52

/-- Neither infinite nor a NaN. -/
def isFinite (d : Double) : Bool := d.exponentField < 2047

/-- Not a number. -/
def isNaN (d : Double) : Bool := d.exponentField == 2047 && d.fractionField != 0

/-- Positive or negative infinity. -/
def isInfinite (d : Double) : Bool := d.exponentField == 2047 && d.fractionField == 0

/-- The significand of a finite number: the fraction, with the hidden bit where there is one. -/
def significand (d : Double) : Nat :=
  if d.exponentField = 0 then d.fractionField else Nat.pow 2 52 + d.fractionField

/-- The magnitude of a finite number is `significand * 2 ^ (scale - 1074)`. -/
def scale (d : Double) : Nat := d.exponentField - 1

/-- Either zero. -/
def isZero (d : Double) : Bool := d.exponentField == 0 && d.fractionField == 0

/-- The magnitude of a finite number as a fraction, numerator first. -/
def magnitude (d : Double) : Nat × Nat :=
  if 1074 ≤ d.scale then (d.significand * Nat.pow 2 (d.scale - 1074), 1)
  else (d.significand, Nat.pow 2 (1074 - d.scale))

/-- Equality as programs see it: a NaN equals nothing and the two zeros are equal. -/
def ieeeEq (a b : Double) : Bool :=
  !a.isNaN && !b.isNaN && (a == b || a.isZero && b.isZero)

/-- The number with this sign, exponent field and fraction field. -/
def ofFields (negative : Bool) (exponent fraction : Nat) : Double :=
  ⟨UInt64.ofNat ((if negative then Nat.pow 2 63 else 0) + exponent * Nat.pow 2 52 + fraction)⟩

def zero : Double := ofFields false 0 0
def infinity : Double := ofFields false 2047 0
def nan : Double := ofFields false 2047 (Nat.pow 2 51)

/-- Division to the nearest natural, a tie going to the even one. -/
def divNearestEven (num den : Nat) : Nat :=
  let q := num / den
  let r := num % den
  if 2 * r < den then q
  else if den < 2 * r then q + 1
  else if q % 2 = 0 then q else q + 1

/-- The exponent `e` for which `num / den` lies in `[2 ^ e, 2 ^ (e + 1))`, shifted by `1074` and cut
off below at `52`, the exponent of the smallest normal number.  `num` and `den` are positive. -/
def shiftedLog2 (num den : Nat) : Nat :=
  let guess := num.log2 + 1074 - den.log2
  let below := if den * Nat.pow 2 guess ≤ num * Nat.pow 2 1074 then guess else guess - 1
  max below 52

/-- The double nearest to the fraction `num / den`; ties go to the even significand, and what is too
large for a finite number is infinite. -/
def ofRatio (num den : Nat) : Double :=
  if num = 0 || den = 0 then zero
  else
    let e := shiftedLog2 num den - 52
    let m := divNearestEven (num * Nat.pow 2 1074) (den * Nat.pow 2 e)
    -- A significand that rounds up to `2 ^ 53` moves to the next exponent by itself: the sum below
    -- carries over.
    let whole := if m < Nat.pow 2 52 then m else (e + 1) * Nat.pow 2 52 + (m - Nat.pow 2 52)
    if 2047 * Nat.pow 2 52 ≤ whole then infinity else ⟨UInt64.ofNat whole⟩

/-- The double nearest to a natural number. -/
def ofNat (n : Nat) : Double := ofRatio n 1

/-- The product of two finite magnitudes, rounded once. -/
def mulMagnitude (a b : Double) : Double :=
  ofRatio (a.magnitude.1 * b.magnitude.1) (a.magnitude.2 * b.magnitude.2)

/-- The quotient of two finite magnitudes, rounded once. -/
def divMagnitude (a b : Double) : Double :=
  ofRatio (a.magnitude.1 * b.magnitude.2) (a.magnitude.2 * b.magnitude.1)

/-- The sum of two finite magnitudes, rounded once. -/
def addMagnitude (a b : Double) : Double :=
  ofRatio (a.magnitude.1 * b.magnitude.2 + b.magnitude.1 * a.magnitude.2)
    (a.magnitude.2 * b.magnitude.2)

/-- The number with this sign and the magnitude of `d`. -/
def withSign (negative : Bool) (d : Double) : Double :=
  ofFields negative d.exponentField d.fractionField

end Double

end PhpRefactor
