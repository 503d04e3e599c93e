import TabularParsing.Json.Reader

/-!
# Values of JSON numbers

The digits are gathered in a 64-bit significand; digits that no longer fit count only by their
place. The significand is then scaled by one power of ten from a table, so the last bit may differ
from the nearest double. A value beyond the doubles is an error, one too small is zero.
-/
namespace TabularParsing.Json

/-- The digits gathered so far stand for `significand * 10 ^ exponent`. -/
structure Gathered where
  significand : Nat
  exponent : Int

/-- Whether another digit still fits. -/
def Gathered.fits (g : Gathered) (digit : Nat) : Bool :=
  10 * g.significand + digit < 0x10000000000000000

/-- Takes the digits before the point; from the first that does not fit on they only count. -/
def gatherWhole (g : Gathered) : List Char → Gathered
  | [] => g
  | c :: cs =>
    if g.fits (Decimal.digitValue c) then
      gatherWhole ⟨10 * g.significand + Decimal.digitValue c, 0⟩ cs
    else ⟨g.significand, (c :: cs).length⟩

/-- Takes the digits behind the point up to the first that does not fit. -/
def gatherFraction (g : Gathered) : List Char → Gathered
  | [] => g
  | c :: cs =>
    if g.fits (Decimal.digitValue c) then
      gatherFraction ⟨10 * g.significand + Decimal.digitValue c, g.exponent - 1⟩ cs
    else g

/-- Scales by a power of ten in at most `n` steps; none if the value grows beyond the doubles. -/
def scaleFloat : Nat → Float → Int → Option Float
  | 0, x, _ => some x
  | n + 1, x, e =>
    if e.natAbs ≤ 308 then
      if 0 ≤ e then
        let y := x * Float.ofScientific 1 false e.natAbs
        if y.isInf then none else some y
      else some (x / Float.ofScientific 1 false e.natAbs)
    else if x == 0.0 then some x
    else if 0 ≤ e then none
    else scaleFloat n (x / 1e308) (e + 308)

/-- The value of gathered digits times a power of ten. A power that overflows 31 bits makes zero or
an error. -/
def Gathered.value? (g : Gathered) (power : Int) : Option Float :=
  if 0x80000000 ≤ power then if g.significand = 0 then some 0.0 else none
  else if power ≤ -0x80000000 then some 0.0
  else scaleFloat 5 (Float.ofNat g.significand) (g.exponent + power)

/-- The value of a number without its sign. -/
def sizeOf? (cs : List Char) : Option Float :=
  let (whole, fraction, rest) := Decimal.splitDigits cs
  (Decimal.readPower rest).bind
    (gatherFraction (gatherWhole ⟨0, 0⟩ whole) fraction).value?

/-- The value of a number as it is spelled. -/
def valueOf? : List Char → Option Float
  | '-' :: cs => (sizeOf? cs).map fun x => -x
  | cs => sizeOf? cs

def number? : Json → Option Float
  | number literal => valueOf? literal
  | _ => none

end TabularParsing.Json
