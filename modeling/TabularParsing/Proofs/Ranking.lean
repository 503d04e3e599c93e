import TabularParsing.Proofs.TotalOn
import TabularParsing.Proofs.Weighing

/-!
# Comparing weights

A parse keeps the heaviest item, and multiplies weights. Whatever comparison agrees with both ranks
derivations. Two are of use: the comparison that calls all weights equal, and the order of weights
between zero and one. Of the products of those nothing is asked but that they are between zero and
one too, are monotone in each factor and exceed neither; that they round is no matter.

## Main definitions

* `Ranking`: what is asked of a comparison.
* `UnitProducts`: what is asked of products of weights between zero and one.
-/
namespace TabularParsing

/-- On the values that satisfy `P` the comparison `le` agrees with `<` and with products. -/
structure Ranking {W : Type} [One W] [Mul W] [LT W] (P : W → Prop) (le : W → W → Prop) : Prop where
  one : P 1
  mul : ∀ {x y : W}, P x → P y → P (x * y)
  refl : ∀ {x : W}, P x → le x x
  trans : ∀ {x y z : W}, P x → P y → P z → le x y → le y z → le x z
  of_lt : ∀ {x y : W}, P x → P y → x < y → le x y
  of_not_lt : ∀ {x y : W}, P x → P y → ¬x < y → le y x
  mul_le_mul : ∀ {x x' y y' : W}, P x → P x' → P y → P y' → le x x' → le y y' →
    le (x * y) (x' * y')

section Ranking

variable {W : Type} [One W] [Mul W] [LT W]

namespace Ranking

variable {P : W → Prop} {le : W → W → Prop} {y : Option W} {x x' : W}

theorem times (h : Ranking P le) (hy : ∀ z ∈ y, P z) (hx : P x) : P (times y x) := by
  cases y with
  | none => exact hx
  | some z => exact h.mul (hy z rfl) hx

theorem times_le_times (h : Ranking P le) (hy : ∀ z ∈ y, P z) (hx : P x) (hx' : P x')
    (hle : le x x') : le (TabularParsing.times y x) (TabularParsing.times y x') := by
  cases y with
  | none => exact hle
  | some z => exact h.mul_le_mul (hy z rfl) (hy z rfl) hx hx' (h.refl (hy z rfl)) hle

end Ranking

/-- To compare no weights says which items stand in a chart, whatever they weigh. -/
theorem ranking_trivial : Ranking (fun _ : W => True) fun _ _ => True := by
  constructor <;> intros <;> trivial

end Ranking

section Unit

variable {W : Type} [Zero W] [One W] [Mul W] [LE W] [LT W]

/-- Between zero and one. -/
def InUnit (x : W) : Prop := 0 ≤ x ∧ x ≤ 1

/-- What is asked of weights between zero and one. -/
structure UnitProducts (W : Type) [Zero W] [One W] [Mul W] [LE W] [LT W] : Prop where
  total : TotalOn fun x : W => InUnit x
  inUnit_one : InUnit (1 : W)
  inUnit_mul : ∀ {x y : W}, InUnit x → InUnit y → InUnit (x * y)
  mul_le_mul : ∀ {x x' y y' : W}, InUnit x → InUnit x' → InUnit y → InUnit y' → x ≤ x' → y ≤ y' →
    x * y ≤ x' * y'
  mul_le_left : ∀ {x y : W}, InUnit x → InUnit y → x * y ≤ x
  mul_le_right : ∀ {x y : W}, InUnit x → InUnit y → x * y ≤ y

theorem UnitProducts.ranking (h : UnitProducts W) :
    Ranking (fun x : W => InUnit x) fun x y => x ≤ y where
  one := h.inUnit_one
  mul := h.inUnit_mul
  refl := h.total.refl
  trans := h.total.trans
  of_lt := h.total.le_of_lt
  of_not_lt := h.total.le_of_not_lt
  mul_le_mul := h.mul_le_mul

end Unit

end TabularParsing
