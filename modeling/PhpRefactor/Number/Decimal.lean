import PhpRefactor.Number.Double

/-!
# Decimal spellings of doubles

A spelled number (`Decimal`) is a sign, the digits before and after the point, and a power of
ten.  Two rules turn it into a double.

* `Decimal.nearest` is exact: the double nearest to the decimal.
* `Decimal.scaled?` is the quick rule of the document format: as many leading digits as fit into 64
  bits are rounded to a double, which is then multiplied or divided once by a rounded power of
  ten.  It agrees with `nearest` wherever both steps are exact, and refuses what leaves the finite
  range.

In the other direction `Double.shortest` finds the shortest decimal that lies in the interval of
reals rounding to a double, and `Layout.text` writes it.  A `Layout` says from which power of ten on
a number is written with an exponent, and how, and which of two shortest decimals is taken when both
are equally near (`Tie`).
-/

set_option autoImplicit false

namespace PhpRefactor

/-- A spelled number: `whole.fraction * 10 ^ exponent`, the digits as naturals below ten. -/
structure Decimal where
  negative : Bool
  whole : List Nat
  fraction : List Nat
  exponent : Int
  deriving DecidableEq, Repr

namespace Decimal

/-- The natural number with these decimal digits, behind those already read. -/
def digitsToNat (start : Nat) (digits : List Nat) : Nat :=
  digits.foldl (fun n d => n * 10 + d) start

/-- The double nearest to the decimal. -/
def nearest (d : Decimal) : Double :=
  let digits := digitsToNat 0 (d.whole ++ d.fraction)
  let power := d.exponent - d.fraction.length
  -- Powers this far out decide the answer before the power of ten is computed.
  let room : Int := 400 + d.whole.length + d.fraction.length
  let magnitude :=
    if digits = 0 then Double.zero
    else if room < power then Double.infinity
    else if power < -room then Double.zero
    else Double.ofRatio (digits * Nat.pow 10 power.toNat) (Nat.pow 10 (-power).toNat)
  Double.withSign d.negative magnitude

/-- Appends digits to a significand for as long as it stays below `2 ^ 64`; returns the digits left
over. -/
def absorb (significand : Nat) : List Nat → Nat × List Nat
  | [] => (significand, [])
  | d :: ds =>
    if significand * 10 + d < Nat.pow 2 64 then absorb (significand * 10 + d) ds
    else (significand, d :: ds)

/-- Divides by `10 ^ power`, at most `10 ^ 308` at a time. -/
def divideDown (value : Double) (power : Nat) : Double :=
  if power ≤ 308 then value.divMagnitude (Double.ofNat (Nat.pow 10 power))
  else if value.isZero then value
  else divideDown (value.divMagnitude (Double.ofNat (Nat.pow 10 308))) (power - 308)
termination_by power

/-- A significand times a power of ten, in one rounded step; `none` beyond the finite range. -/
def scale? (significand : Nat) (power : Int) : Option Double :=
  let value := Double.ofNat significand
  if power < 0 then some (divideDown value (-power).toNat)
  else if value.isZero then some value
  else if 308 < power then none
  else
    let product := value.mulMagnitude (Double.ofNat (Nat.pow 10 power.toNat))
    if product.isFinite then some product else none

/-- The quick rule: the leading digits that fit into 64 bits, scaled once.  Digits of the fraction
that do not fit are dropped, digits before the point that do not fit still count as places. -/
def scaled? (d : Decimal) : Option Double :=
  let (whole, beyond) := absorb 0 d.whole
  let (significand, dropped) := absorb whole d.fraction
  let places : Int := d.fraction.length - dropped.length
  (scale? significand (beyond.length - places + d.exponent)).map (Double.withSign d.negative)

end Decimal

/-- Which of two neighbours on a decimal grid stands for a number halfway between them. -/
inductive Tie where
  | upper
  /-- The one whose last digit is even. -/
  | even
  deriving DecidableEq, Repr

namespace Tie

/-- The neighbour that is taken, by the lower one. -/
def pick (tie : Tie) (below : Nat) : Nat :=
  match tie with
  | upper => below + 1
  | even => if below % 2 = 0 then below else below + 1

end Tie

namespace Double

/-- Takes the factors of ten out of a number. -/
def stripZeros (digits : Nat) (power : Int) : Nat × Int :=
  if h : digits ≠ 0 ∧ digits % 10 = 0 then stripZeros (digits / 10) (power + 1)
  else (digits, power)
termination_by digits
decreasing_by omega

/-- The shortest decimal `digits * 10 ^ power` that reads back as the finite, non-zero magnitude of
`d`; of several, the nearest, and of two that are equally near the one that `tie` names.

All quantities are multiples of `2 ^ -1076`: the number itself, and the two ends of the interval of
reals that round to it, which belong to the interval exactly when the significand is even.  Below a
power of two the gap is half as wide. -/
def shortest (tie : Tie) (d : Double) : Nat × Int :=
  let m := d.significand
  let value := 4 * m * Nat.pow 2 d.scale
  let gapBelow := if d.fractionField = 0 && 1 < d.exponentField then 1 else 2
  let low := (4 * m - gapBelow) * Nat.pow 2 d.scale
  let high := (4 * m + 2) * Nat.pow 2 d.scale
  let unit := Nat.pow 2 1076
  -- The power of ten of the leading digit.
  let leading : Int := (Nat.repr (value * Nat.pow 10 400 / unit)).length - 401
  let tryPlaces (places : Nat) : Option (Nat × Int) :=
    let power := leading - places
    let up := Nat.pow 10 power.toNat
    let down := Nat.pow 10 (-power).toNat
    let grid := unit * up
    let inside (c : Nat) : Bool :=
      if m % 2 = 0 then low * down ≤ c * grid && c * grid ≤ high * down
      else low * down < c * grid && c * grid < high * down
    let below := value * down / grid
    let above := below + 1
    match inside below, inside above with
    | true, true =>
      match compare (value * down - below * grid) (above * grid - value * down) with
      | .lt => some (below, power)
      | .gt => some (above, power)
      | .eq => some (tie.pick below, power)
    | true, false => some (below, power)
    | false, true => some (above, power)
    | false, false => none
  let (digits, power) := ((List.range 18).findSome? tryPlaces).getD (value, -1076)
  stripZeros digits power

end Double

/-- How the digits of a double are laid out. -/
structure Layout where
  /-- Numbers below `10 ^ lowest` are written with an exponent. -/
  lowest : Int
  /-- Numbers from `10 ^ highest` on are written with an exponent. -/
  highest : Int
  /-- What stands before a non-negative exponent. -/
  positive : String
  /-- Which of two equally near shortest decimals is written. -/
  tie : Tie
  deriving DecidableEq, Repr

namespace Layout

/-- The digits and the power of ten of their last place, written out.  Without an exponent there is
at least one digit after the point. -/
def magnitudeText (layout : Layout) (digits : Nat) (power : Int) : String :=
  let text := (Nat.repr digits).toList
  let point := power + text.length
  let leading := point - 1
  if layout.lowest ≤ leading && leading < layout.highest then
    if point ≤ 0 then
      String.ofList ('0' :: '.' :: List.replicate (-point).toNat '0' ++ text)
    else if text.length ≤ point then
      String.ofList (text ++ List.replicate (point.toNat - text.length) '0' ++ ['.', '0'])
    else
      String.ofList (text.take point.toNat ++ '.' :: text.drop point.toNat)
  else
    let fraction := text.drop 1
    let mantissa := text.take 1 ++ (if fraction.isEmpty then [] else '.' :: fraction)
    let sign := if leading < 0 then "-" else layout.positive
    String.ofList mantissa ++ "e" ++ sign ++ Nat.repr leading.natAbs

/-- The text of a finite double: the shortest digits that read back. -/
def text (layout : Layout) (d : Double) : String :=
  let sign := if d.isNegative then "-" else ""
  if d.isZero then sign ++ "0.0"
  else
    let (digits, power) := d.shortest layout.tie
    sign ++ layout.magnitudeText digits power

end Layout

end PhpRefactor
