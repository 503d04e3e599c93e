import TabularParsing.Proofs.Agreement.Conversion
import TabularParsing.Proofs.BestScore
import TabularParsing.Proofs.Earley.BestDerivation

/-!
# Best scores and probabilities of converted grammars

With exact logarithms a score is the logarithm of a product of weights, so the best score of a
sentence is the logarithm of the greatest product. That product is also the probability that a
parse by the weighted grammar finds. Rules of weight zero, which scores leave out and products do
not, add nothing but the product zero.

## Main definitions

* `LogScale.Exact`: logarithms without rounding.
* `Grammar.products`: the products of the weights of derivations.

## Main statement

* `Earley.Parse.probability_ofCnf_eq`
-/
namespace TabularParsing

variable {K L : Type}

/-- Logarithms grow strictly with weights, turn products into sums and are undone by `exp`. What
cannot happen has the weight zero. -/
structure LogScale.Exact [Zero K] [One K] [Mul K] [LE K] [LT K] [Add L] [LE L] [LT L]
    (scale : LogScale K L) : Prop extends LogScale.Regular scale where
  log_lt_log : ∀ {x y : K}, 0 < x → x < y → scale.log x < scale.log y
  log_mul : ∀ {x y : K}, 0 < x → 0 < y → scale.log (x * y) = scale.log x + scale.log y
  exp_log : ∀ {x : K}, 0 < x → scale.exp (scale.log x) = x
  exp_never : scale.exp scale.never = 0

variable [Field K] [LinearOrder K] [IsStrictOrderedRing K] {weights : RuleWeights K}

namespace Grammar

variable {g : Grammar} {tokens : List String} {start : String}

/-- The products of the weights of the derivations of a sentence. -/
def products (g : Grammar) (weights : RuleWeights K) (start : String) (tokens : List String) :
    Set K :=
  {z | Multiplies (· ∈ g.rules) weights.get start tokens z}

theorem Multiplies.nonneg {symbol : String} {ws : List String} {z : K}
    (hw : ∀ r ∈ g.rules, InUnit (weights.get r))
    (h : Multiplies (· ∈ g.rules) weights.get symbol ws z) : 0 ≤ z := by
  induction h with
  | word hr => exact (hw _ hr).1
  | pair hr _ _ hx hy => exact mul_nonneg hy (mul_nonneg hx (hw _ hr).1)

variable [Add L] [LE L] [LT L] {scale : LogScale K L}

/-- Every score is the logarithm of a product. -/
theorem exists_multiplies_of_scores (hscale : scale.Exact) {symbol : String} {ws : List String}
    {x : L} (h : x ∈ g.PositiveScores scale weights symbol ws) :
    ∃ z, 0 < z ∧ Multiplies (· ∈ g.rules) weights.get symbol ws z ∧ x = scale.log z := by
  induction h with
  | word hr => exact ⟨_, hr.2, .word hr.1, scale.logWeight_of_pos hr.2⟩
  | @pair lhs left right _ _ _ _ hr _ _ hleft hright =>
    obtain ⟨x, hx, hleft, rfl⟩ := hleft
    obtain ⟨y, hy, hright, rfl⟩ := hright
    have hxw := mul_pos hx hr.2
    refine ⟨_, mul_pos hy hxw, .pair hr.1 hleft hright, ?_⟩
    rw [scale.logWeight_of_pos hr.2, ← hscale.log_mul hx hr.2, ← hscale.log_mul hxw hy, mul_comm y]

/-- The logarithm of every product above zero is a score. -/
theorem log_mem_positiveScores (hscale : scale.Exact)
    (hw : ∀ r ∈ g.rules, InUnit (weights.get r)) {symbol : String} {ws : List String} {z : K}
    (h : Multiplies (· ∈ g.rules) weights.get symbol ws z) (hz : 0 < z) :
    scale.log z ∈ g.PositiveScores scale weights symbol ws := by
  induction h with
  | word hr =>
    rw [← scale.logWeight_of_pos hz]
    exact .word ⟨hr, hz⟩
  | @pair lhs left right _ _ x y hr hleft hright ihleft ihright =>
    have hrule := (hw _ hr).1
    have hxw : 0 < x * weights.get (.pair lhs left right) :=
      pos_of_mul_pos_right hz (hright.nonneg hw)
    have hy : 0 < y := pos_of_mul_pos_left hz hxw.le
    have hx : 0 < x := pos_of_mul_pos_left hxw hrule
    have hrule : 0 < weights.get (.pair lhs left right) := pos_of_mul_pos_right hxw hx.le
    rw [mul_comm y, hscale.log_mul hxw hy, hscale.log_mul hx hrule, ← scale.logWeight_of_pos hrule]
    exact .pair ⟨hr, hrule⟩ (ihleft hx) (ihright hy)

variable [DecidableLT L]

/-- The probability that the best scores give a sentence is the greatest product, or zero. -/
theorem isGreatest_probability_scored (hscale : scale.Exact)
    (hw : ∀ r ∈ g.rules, InUnit (weights.get r)) :
    IsGreatest (insert 0 (g.products weights start tokens))
      ((g.scored scale weights tokens).probability scale g start) := by
  have hle : ∀ r ∈ g.rules, weights.get r ≤ 1 := fun r hr => (hw r hr).2
  have hadmits := admits_bestScore hscale.toRegular hle
  -- a product above zero has a score, and so a cell
  have hcell {z : K} (hz : z ∈ g.products weights start tokens) (hpos : 0 < z) : ∃ a cell,
      g.index? start = some a ∧
        (g.bestChart scale weights tokens).get? ⟨1, tokens.length, a⟩ = some cell := by
    have hderives := (derivesBy_iff_scores _).2 ⟨_, log_mem_positiveScores hscale hw hz hpos⟩
    obtain ⟨a, ha⟩ := exists_index? (Derives.mem_nonterminals (hderives.mono fun _ h => h.1))
    have hlen : 1 ≤ tokens.length := List.length_pos_iff.2 hderives.ne_nil
    obtain ⟨cell, hcell⟩ := (hadmits.get?_chart_iff ha (Nat.le_refl 1) hlen (Nat.le_refl _)).2
      (by rw [segment_full]; exact hderives)
    exact ⟨a, cell, ha, hcell⟩
  have hzero (hfree : ∀ a cell, g.index? start = some a →
      (g.bestChart scale weights tokens).get? ⟨1, tokens.length, a⟩ ≠ some cell) :
      IsGreatest (insert 0 (g.products weights start tokens)) (0 : K) := by
    refine ⟨Set.mem_insert _ _, ?_⟩
    rintro z (rfl | hz)
    · exact le_rfl
    · by_contra hpos
      obtain ⟨a, cell, ha, hset⟩ := hcell hz (lt_of_not_ge hpos)
      exact hfree a cell ha hset
  simp only [ScoredParse.probability, ScoredParse.score, ScoredParse.cellScore, scored]
  cases hindex : g.index? start with
  | none =>
    simp only [hscale.exp_never]
    exact hzero fun a cell ha => by rw [hindex] at ha; cases ha
  | some a =>
    cases hset : (g.bestChart scale weights tokens).get? ⟨1, tokens.length, a⟩ with
    | none =>
      simp only [hset, hscale.exp_never]
      refine hzero fun a' cell ha => ?_
      obtain rfl := Option.some.inj (hindex.symm.trans ha)
      simp [hset]
    | some cell =>
      have hgreatest := isGreatest_score hscale.toRegular hle hindex hset
      rw [segment_full] at hgreatest
      obtain ⟨x, hx, hproduct, hscore⟩ := exists_multiplies_of_scores hscale hgreatest.1
      simp only [hset, hscore, hscale.exp_log hx]
      refine ⟨Set.mem_insert_of_mem _ hproduct, ?_⟩
      rintro z (rfl | hz)
      · exact hx.le
      · by_contra hxz
        have hlt := lt_of_not_ge hxz
        have hlog := log_mem_positiveScores hscale hw hz (hx.trans hlt)
        have hnever := never_lt_of_mem_positiveScores hscale.toRegular hle hlog
        have hnever' := never_lt_of_mem_positiveScores hscale.toRegular hle hgreatest.1
        rw [hscore] at hnever'
        exact (hscale.total.lt_iff hnever' hnever).1 (hscale.log_lt_log hx hlt)
          (hscore ▸ hgreatest.2 hlog)

end Grammar

namespace Earley

variable {g : Grammar} {tokens : List String} {start : String}

omit [LinearOrder K] [IsStrictOrderedRing K] in
/-- The weights of derivations by a converted grammar are the products. -/
theorem derivationWeights_ofCnf (hstart : Text.startsUppercase start = true) :
    (WeightedGrammar.ofCnf g weights start).derivationWeights tokens =
      g.products weights start tokens := by
  ext z
  simp only [WeightedGrammar.derivationWeights, WeightedGrammar.start_ofCnf, Production.ofSymbol,
    if_pos hstart, WeightedGrammar.weighs_ofCnf_iff, Grammar.products, Set.mem_ofPred_eq]
  constructor
  · rintro ⟨y, ⟨x, rfl, hx⟩, rfl⟩
    exact hx
  · exact fun hz => ⟨_, ⟨z, rfl, hz⟩, rfl⟩

/-- The probability that a parse finds for a sentence is the greatest product, or zero. -/
theorem Saturated.isGreatest_probability_ofCnf {c : Chart K}
    (h : Saturated (fun w => InUnit w) (fun x y => x ≤ y) (.ofCnf g weights start) tokens c)
    (hreach : Reachable (.ofCnf g weights start) tokens c)
    (hcons : (WeightedGrammar.ofCnf g weights start).Consistent)
    (hw : ∀ r ∈ g.rules, InUnit (weights.get r)) (hstart : Text.startsUppercase start = true) :
    IsGreatest (insert 0 (g.products weights start tokens))
      (⟨.ofCnf g weights start, tokens.length, c⟩ : Parse K).probability := by
  by_cases hderives : (WeightedGrammar.ofCnf g weights start).Derives
      (.ofSymbol (WeightedGrammar.ofCnf g weights start).start) tokens
  · have hgreatest := h.isGreatest_probability unitProducts_exact (fun _ => mul_one _) hreach hcons
      hderives
    rw [derivationWeights_ofCnf hstart] at hgreatest
    refine ⟨Set.mem_insert_of_mem _ hgreatest.1, ?_⟩
    rintro z (rfl | hz)
    · exact Grammar.Multiplies.nonneg hw hgreatest.1
    · exact hgreatest.2 hz
  · rw [hreach.probability_eq_zero hcons hderives]
    refine ⟨Set.mem_insert _ _, ?_⟩
    rintro z (rfl | hz)
    · exact le_rfl
    · rw [← derivationWeights_ofCnf hstart] at hz
      obtain ⟨y, hy, -⟩ := hz
      exact absurd (WeightedGrammar.derives_of_weighs hy) hderives

/-- If no word of a grammar is spelled like one of its nonterminals, the best scores and a parse by
its weighted grammar give a sentence the same probability. -/
theorem Parse.probability_ofCnf_eq [Add L] [LE L] [LT L] [DecidableLT L] {scale : LogScale K L}
    (hscale : scale.Exact) (hapart : ∀ lhs w, .word lhs w ∈ g.rules → w ∉ g.nonterminals)
    (hw : ∀ r ∈ g.rules, InUnit (weights.get r)) (hstart : Text.startsUppercase start = true)
    {limit : Nat} (hlimit : turnBound (.ofCnf g weights start) tokens ≤ limit) :
    ∃ p, Parse.ofTokens limit (.ofCnf g weights start) tokens = .ok p ∧
      p.probability = (g.scored scale weights tokens).probability scale g start := by
  have hcons : (WeightedGrammar.ofCnf g weights start).Consistent :=
    (Grammar.spelledApart_of_not_mem hapart start).consistent hstart
  have hweights : (WeightedGrammar.ofCnf g weights start).WeightsIn fun w => InUnit w :=
    WeightedGrammar.weightsIn_ofCnf hw
  obtain ⟨c, hp, hreach, hsaturated⟩ := exists_ofTokens unitProducts_exact.ranking hweights
    (fillChart_ne_outOfSteps unitProducts_exact hweights hlimit)
  exact ⟨_, hp, (hsaturated.isGreatest_probability_ofCnf hreach hcons hw hstart).unique
    (Grammar.isGreatest_probability_scored hscale hw)⟩

theorem exactScale_exact : exactScale.Exact where
  toRegular := exactScale_regular
  log_lt_log hx hxy := EReal.coe_lt_coe_iff.2 (Real.log_lt_log hx hxy)
  log_mul hx hy := by
    simp only [exactScale]
    rw [Real.log_mul hx.ne' hy.ne', EReal.coe_add]
  exp_log hx := by
    simp only [exactScale]
    rw [EReal.exp_coe, ENNReal.toReal_ofReal (Real.exp_pos _).le, Real.exp_log hx]
  exp_never := by simp [exactScale]

theorem Parse.probability_ofCnf_eq_doubling :
    (exactScale.Exact ∧
      (∀ lhs w, .word lhs w ∈ Grammar.doubling.rules → w ∉ Grammar.doubling.nonterminals) ∧
      (∀ r ∈ Grammar.doubling.rules, InUnit (Grammar.doublingWeights.get r)) ∧
      Text.startsUppercase "S" = true) ∧
    ∃ p, Parse.ofTokens (turnBound (.ofCnf Grammar.doubling Grammar.doublingWeights "S")
        ["x", "x", "x"]) (.ofCnf Grammar.doubling Grammar.doublingWeights "S") ["x", "x", "x"] =
          .ok p ∧
      p.probability = (Grammar.doubling.scored exactScale Grammar.doublingWeights
        ["x", "x", "x"]).probability exactScale Grammar.doubling "S" := by
  have hapart : ∀ lhs w, .word lhs w ∈ Grammar.doubling.rules →
      w ∉ Grammar.doubling.nonterminals := by
    intro lhs w hr
    simp only [Grammar.doubling, Grammar.mem_rules_make, Rule.word, Rule.pair, List.mem_cons,
      Rule.mk.injEq, Rhs.word.injEq, reduceCtorEq, and_false, List.not_mem_nil, or_false,
      false_or] at hr
    rw [hr.2]
    decide
  have hw : ∀ r ∈ Grammar.doubling.rules, InUnit (Grammar.doublingWeights.get r) :=
    Grammar.doublingWeights_mem_unit
  have hstart : Text.startsUppercase "S" = true := by decide +kernel
  exact ⟨⟨exactScale_exact, hapart, hw, hstart⟩,
    probability_ofCnf_eq exactScale_exact hapart hw hstart (Nat.le_refl _)⟩

end Earley

end TabularParsing
