import TabularParsing.Decimal.Style

/-!
# Numbers with a fixed count of places

The exact value is rounded to the grid of the last place; half way goes to the even neighbour.
-/
namespace TabularParsing.Decimal

/-- `num / den` rounded to a whole number, half way to even. -/
def roundHalfEven (num den : Nat) : Nat :=
  let q := num / den
  match compare (2 * (num % den)) den with
  | .lt => q
  | .gt => q + 1
  | .eq => if q % 2 = 0 then q else q + 1

/-- The value times `10 ^ places`, rounded to a whole number. -/
def Binary.inPlaces (x : Binary) (places : Nat) : Nat :=
  roundHalfEven (x.significand * Nat.pow 2 x.exponent.toNat * Nat.pow 10 places)
    (Nat.pow 2 (-x.exponent).toNat)

/-- A whole number with its last `places` digits behind the point. -/
def placePoint (n places : Nat) : List Char :=
  let ds := digitChars n
  let ds := zeros (places + 1 - ds.length) ++ ds
  ds.take (ds.length - places) ++ '.' :: ds.drop (ds.length - places)

def fixed (places : Nat) (x : Float) : String :=
  if x.isNaN then "NaN"
  else
    let body := if x.isInf then ['i', 'n', 'f']
      else placePoint ((Binary.ofFloat x).inPlaces places) places
    String.ofList (if isNegative x then '-' :: body else body)

end TabularParsing.Decimal
