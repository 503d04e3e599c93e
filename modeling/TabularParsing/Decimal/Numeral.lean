/-!
# Reading numbers

A numeral is an optional sign followed by digits with at most one point among them and an optional
power of ten, or by `inf`, `infinity` or `nan` in any case.
-/
namespace TabularParsing.Decimal

inductive Numeral where
  /-- `digits * 10 ^ exponent`, negated if `negative`. -/
  | finite (negative : Bool) (digits : Nat) (exponent : Int)
  | infinite (negative : Bool)
  | undefined
  deriving DecidableEq

def isDigit (c : Char) : Bool := '0' ≤ c && c ≤ '9'

def digitValue (c : Char) : Nat := c.toNat - '0'.toNat

/-- The number that a run of digits spells. -/
def natOfDigits (cs : List Char) : Nat := cs.foldl (fun n c => 10 * n + digitValue c) 0

/-- An optional sign, and what follows it. -/
def splitSign : List Char → Bool × List Char
  | '-' :: cs => (true, cs)
  | '+' :: cs => (false, cs)
  | cs => (false, cs)

/-- The power of ten after `e` or `E`, or zero if nothing is left. -/
def readPower : List Char → Option Int
  | [] => some 0
  | c :: cs =>
    if c = 'e' ∨ c = 'E' then
      let (negative, ds) := splitSign cs
      if ds.isEmpty || !ds.all isDigit then none
      else some (if negative then -(natOfDigits ds : Int) else natOfDigits ds)
    else none

/-- The digits before and after the point, and the rest of the text. -/
def splitDigits (cs : List Char) : List Char × List Char × List Char :=
  let whole := cs.takeWhile isDigit
  match cs.dropWhile isDigit with
  | '.' :: rest => (whole, rest.takeWhile isDigit, rest.dropWhile isDigit)
  | rest => (whole, [], rest)

def Numeral.ofWord (negative : Bool) (cs : List Char) : Option Numeral :=
  let word := cs.map Char.toLower
  if word = "inf".toList ∨ word = "infinity".toList then some (.infinite negative)
  else if word = "nan".toList then some .undefined
  else none

def Numeral.read (cs : List Char) : Option Numeral :=
  let (negative, body) := splitSign cs
  let (whole, fraction, rest) := splitDigits body
  if whole.isEmpty && fraction.isEmpty then ofWord negative body
  else (readPower rest).map fun power =>
    .finite negative (natOfDigits (whole ++ fraction)) (power - fraction.length)

/-- The double nearest to `digits * 10 ^ exponent`, half way to even. Powers so far out that the
answer is zero or infinite are not computed. -/
def nearest (digits : Nat) (exponent : Int) : Float :=
  let size : Int := digits.log2 / 3 + exponent
  if digits = 0 ∨ size + 1 < -400 then 0.0
  else if 800 < exponent then Float.ofScientific 1 false 800
  else Float.ofScientific digits (exponent < 0) exponent.natAbs

def Numeral.toFloat : Numeral → Float
  | .finite negative digits exponent =>
    let x := nearest digits exponent
    if negative then -x else x
  | .infinite negative => if negative then -(1.0 / 0.0) else 1.0 / 0.0
  | .undefined => 0.0 / 0.0

/-- The number a whole text spells. -/
def read? (s : String) : Option Float := (Numeral.read s.toList).map Numeral.toFloat

end TabularParsing.Decimal
