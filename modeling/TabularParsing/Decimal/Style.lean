import TabularParsing.Decimal.Shortest

/-!
# Number texts with the fewest digits

A `Style` says how the chosen digits are laid out: where positions end and powers of ten begin,
whether a whole number shows `.0`, whether a power above zero shows its sign.
-/
namespace TabularParsing.Decimal

structure Style where
  tie : Tie
  /-- Whether a number whose leading digit stands for `10 ^ e` is written positionally. -/
  positional : Int → Bool
  /-- `12.0` rather than `12`. -/
  wholePoint : Bool
  /-- `1e+16` rather than `1e16`. -/
  plusSign : Bool

def digitChars (n : Nat) : List Char := Nat.toDigits 10 n

def zeros (n : Nat) : List Char := List.replicate n '0'

/-- The digits with a decimal point where it belongs. -/
def Style.layPositional (s : Style) (d : Scaled) : List Char :=
  let ds := digitChars d.digits
  let point : Int := ds.length + d.exponent
  if 0 ≤ d.exponent then
    ds ++ zeros d.exponent.toNat ++ if s.wholePoint then ['.', '0'] else []
  else if 0 < point then ds.take point.toNat ++ '.' :: ds.drop point.toNat
  else '0' :: '.' :: zeros (-point).toNat ++ ds

/-- One digit before the point, and the power of ten it stands for. -/
def Style.layScientific (s : Style) (d : Scaled) : List Char :=
  let ds := digitChars d.digits
  let power : Int := ds.length + d.exponent - 1
  let mantissa := ds.take 1 ++ if ds.length ≤ 1 then [] else '.' :: ds.drop 1
  let sign := if power < 0 then ['-'] else if s.plusSign then ['+'] else []
  mantissa ++ 'e' :: sign ++ digitChars power.natAbs

/-- The text of a finite number without its sign. -/
def Style.lay (s : Style) (d : Scaled) : List Char :=
  if d.digits = 0 then '0' :: if s.wholePoint then ['.', '0'] else []
  else if s.positional ((digitChars d.digits).length + d.exponent - 1) then s.layPositional d
  else s.layScientific d

def Style.render (s : Style) (x : Float) : String :=
  if x.isNaN then "NaN"
  else
    let body := if x.isInf then ['i', 'n', 'f'] else
      let b := Binary.ofFloat x
      s.lay (if b.significand = 0 then ⟨0, 0⟩ else b.shortest s.tie)
    String.ofList (if isNegative x then '-' :: body else body)

/-- Weights in grammar texts: always positional, whole numbers without a point. -/
def plainStyle : Style := ⟨.up, fun _ => true, false, false⟩

def plain (x : Float) : String := plainStyle.render x

end TabularParsing.Decimal
