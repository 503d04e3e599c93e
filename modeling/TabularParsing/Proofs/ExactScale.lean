import Mathlib.Analysis.SpecialFunctions.Log.ERealExp
import Mathlib.Analysis.SpecialFunctions.Log.Basic
import TabularParsing.LogScale
import TabularParsing.Proofs.TotalOn

/-!
# Regular scales

What the theory asks of scores, and the exact scale: logarithms of real numbers, with minus
infinity for what cannot happen.
-/
namespace TabularParsing

variable {W L : Type}

/-- Scores above `never` compare like numbers, sums are monotone and lead no two of them to
`never`, and weights up to one have such scores. -/
structure LogScale.Regular [Zero W] [One W] [LE W] [LT W] [Add L] [LE L] [LT L]
    (scale : LogScale W L) : Prop where
  total : TotalOn fun x : L => scale.never < x
  not_never_lt : ¬scale.never < scale.never
  never_lt_log : ∀ w : W, 0 < w → w ≤ 1 → scale.never < scale.log w
  never_lt_add : ∀ {x y : L}, scale.never < x → scale.never < y → scale.never < x + y
  add_le_add_left : ∀ {x y z : L}, scale.never < x → scale.never < y → scale.never < z →
    x ≤ y → z + x ≤ z + y
  add_le_add_right : ∀ {x y z : L}, scale.never < x → scale.never < y → scale.never < z →
    x ≤ y → x + z ≤ y + z

theorem LogScale.logWeight_of_pos [Zero W] [LT W] [DecidableLT W] (scale : LogScale W L) {w : W}
    (h : 0 < w) : scale.logWeight w = scale.log w :=
  if_pos h

theorem LogScale.Regular.add_add_le_add_add [Zero W] [One W] [LE W] [LT W] [Add L] [LE L] [LT L]
    {scale : LogScale W L} (h : scale.Regular) {x x' r y y' : L} (hx : scale.never < x)
    (hx' : scale.never < x') (hr : scale.never < r) (hy : scale.never < y)
    (hy' : scale.never < y') (hxx' : x ≤ x') (hyy' : y ≤ y') : x + r + y ≤ x' + r + y' := by
  have hsum := h.never_lt_add hx hr
  have hsum' := h.never_lt_add hx' hr
  have hleft := h.add_le_add_right hsum hsum' hy (h.add_le_add_right hx hx' hr hxx')
  have hright := h.add_le_add_left hy hy' hsum' hyy'
  exact h.total.trans (h.never_lt_add hsum hy) (h.never_lt_add hsum' hy)
    (h.never_lt_add hsum' hy') hleft hright

/-- Natural logarithms of real numbers. -/
noncomputable def exactScale : LogScale ℝ EReal :=
  ⟨⊥, fun w => (Real.log w : EReal), fun x => (EReal.exp x).toReal⟩

theorem exactScale_regular : exactScale.Regular where
  total := totalOn_of_linearOrder _
  not_never_lt := lt_irrefl _
  never_lt_log _ _ _ := EReal.bot_lt_coe _
  never_lt_add hx hy := EReal.bot_lt_add_iff.2 ⟨hx, hy⟩
  add_le_add_left _ _ _ h := add_le_add le_rfl h
  add_le_add_right _ _ _ h := add_le_add h le_rfl

end TabularParsing
