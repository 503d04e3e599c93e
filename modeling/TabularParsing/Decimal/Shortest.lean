import TabularParsing.Decimal.Binary

/-!
# The fewest digits that read back

Grids `10 ^ k` are tried from coarse to fine. On each the two neighbours of the value are tested;
the first grid with a hit wins, of two hits the nearer one.
-/
namespace TabularParsing.Decimal

/-- Which of two neighbours on a grid stands for a value half way between them. -/
inductive Tie where
  | toEven
  | up
  deriving DecidableEq

/-- The least `k` with `x < 10 ^ k`, for `x` other than zero: the binary logarithm leaves three
candidates. -/
def Binary.scale (x : Binary) : Int :=
  let k := Int.fdiv ((x.significand.log2 + x.exponent) * 30103) 100000
  if compareScaled 1 k x.significand x.exponent == .gt then k
  else if compareScaled 1 (k + 1) x.significand x.exponent == .gt then k + 1
  else k + 2

/-- The neighbour of the value on the grid `10 ^ k` that reads back, the nearer if both do. -/
def Binary.onGrid? (x : Binary) (tie : Tie) (k : Int) : Option Scaled :=
  let num := x.significand * Nat.pow 2 x.exponent.toNat * Nat.pow 10 (-k).toNat
  let den := Nat.pow 2 (-x.exponent).toNat * Nat.pow 10 k.toNat
  let below : Scaled := ⟨num / den, k⟩
  let above : Scaled := ⟨num / den + 1, k⟩
  match x.readsBack below, x.readsBack above with
  | false, false => none
  | true, false => some below
  | false, true => some above
  | true, true =>
    match compare (2 * (num % den)) den with
    | .lt => some below
    | .gt => some above
    | .eq =>
      match tie with
      | .up => some above
      | .toEven => if below.digits % 2 = 0 then some below else some above

/-- The value itself, with all its digits. -/
def Binary.exact (x : Binary) : Scaled :=
  if 0 ≤ x.exponent then ⟨x.significand * Nat.pow 2 x.exponent.toNat, 0⟩
  else ⟨x.significand * Nat.pow 5 (-x.exponent).toNat, x.exponent⟩

/-- Moves trailing zeros of the digits into the exponent, at most `n` of them. -/
def Scaled.stripZeros : Nat → Scaled → Scaled
  | 0, d => d
  | n + 1, d =>
    if d.digits ≠ 0 ∧ d.digits % 10 = 0 then stripZeros n ⟨d.digits / 10, d.exponent + 1⟩ else d

/-- The fewest digits that read back as the value; seventeen always do. -/
def Binary.shortest (x : Binary) (tie : Tie) : Scaled :=
  let k := x.scale
  let found := (List.range 17).findSome? fun (n : Nat) => x.onGrid? tie (k - (n + 1))
  let d := found.getD x.exact
  d.stripZeros (d.digits.log2 + 1)

end TabularParsing.Decimal
