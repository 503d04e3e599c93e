import Mathlib.Algebra.Order.Field.Rat
import Mathlib.Order.Bounds.Defs
import Mathlib.Tactic.NormNum
import TabularParsing.Proofs.Earley.Acceptance
import TabularParsing.Proofs.Earley.Termination

/-!
# The probability is that of the best derivation

With weights between zero and one a parse ends, and its probability is the greatest weight of any
derivation of the sentence, zero if there is none. Unit cycles, left recursion and alternatives
that are listed more than once make no difference.

## Main definition

* `WeightedGrammar.derivationWeights`: the weights of the derivations of a sentence.

## Main statement

* `Earley.Parse.probability_optimal`
-/
namespace TabularParsing

/-- Exact products satisfy all that is asked of products. -/
theorem unitProducts_exact {K : Type} [Field K] [LinearOrder K] [IsStrictOrderedRing K] :
    UnitProducts K where
  total := totalOn_of_linearOrder _
  inUnit_one := ⟨zero_le_one, le_rfl⟩
  inUnit_mul hx hy := ⟨mul_nonneg hx.1 hy.1, mul_le_one₀ hx.2 hy.1 hy.2⟩
  mul_le_mul _ hx' hy _ hx hle := mul_le_mul hx hle hy.1 hx'.1
  mul_le_left hx hy := mul_le_of_le_one_right hx.1 hy.2
  mul_le_right hx hy := mul_le_of_le_one_left hy.1 hx.2

/-- The weights of the derivations of a sentence. A start symbol that is the sentence itself
weighs one. -/
def WeightedGrammar.derivationWeights {W : Type} [One W] [Mul W] (g : WeightedGrammar W)
    (ws : List String) : Set W :=
  {w | ∃ y, g.Weighs (.ofSymbol g.start) ws y ∧ w = y.getD 1}

namespace Earley

variable {W : Type} [Zero W] [One W] [Mul W] [LE W] [LT W] [DecidableLT W]
variable {g : WeightedGrammar W} {tokens : List String}

omit [DecidableLT W] in
/-- The probability of a sentence in a saturated chart is the greatest weight of its derivations. -/
theorem Saturated.isGreatest_probability {c : Chart W} (hu : UnitProducts W)
    (hone : ∀ {x : W}, InUnit x → x * 1 = x)
    (h : Saturated (fun w => InUnit w) (fun x y => x ≤ y) g tokens c)
    (hreach : Reachable g tokens c) (hcons : g.Consistent)
    (hderives : g.Derives (.ofSymbol g.start) tokens) :
    IsGreatest (g.derivationWeights tokens) (⟨g, tokens.length, c⟩ : Parse W).probability := by
  have htimes {y : Option W} (hy : g.Weighs (.ofSymbol g.start) tokens y) :
      times y 1 = y.getD 1 := by
    cases y with
    | none => rfl
    | some y => exact hone (h.weightsIn.of_weighs hu.inUnit_mul hy y rfl)
  obtain ⟨y, hy⟩ := WeightedGrammar.exists_weighs hderives
  obtain ⟨place, i, hi, hedge, -⟩ := h.holds_completed_goal hreach hy
  have hgoal := (Parse.goal?_eq_some_iff hcons hreach).2 ⟨place, hi, hedge⟩
  rw [Parse.probability, hgoal]
  constructor
  · obtain ⟨y, hy, hweight⟩ := hreach.weighs_goal hcons hi hedge
    exact ⟨y, hy, hweight.trans (htimes hy)⟩
  · rintro w ⟨y, hy, rfl⟩
    obtain ⟨place', i', hi', hedge', hle⟩ := h.holds_completed_goal hreach hy
    obtain rfl := hreach.valid.apart hi hi' (hedge.trans hedge'.symm)
    obtain rfl := Option.some.inj (hi.symm.trans hi')
    rwa [htimes hy] at hle

omit [LE W] [DecidableLT W] in
theorem Reachable.probability_eq_zero {c : Chart W} (hreach : Reachable g tokens c)
    (hcons : g.Consistent) (hnot : ¬g.Derives (.ofSymbol g.start) tokens) :
    (⟨g, tokens.length, c⟩ : Parse W).probability = 0 := by
  cases hgoal : (⟨g, tokens.length, c⟩ : Parse W).goal? with
  | none => rw [Parse.probability, hgoal]
  | some i =>
    obtain ⟨place, hi, hedge⟩ := (Parse.goal?_eq_some_iff hcons hreach).1 hgoal
    obtain ⟨y, hy, -⟩ := hreach.weighs_goal hcons hi hedge
    exact absurd (WeightedGrammar.derives_of_weighs hy) hnot

/-- With weights between zero and one a parse ends. The probability of a sentence is the greatest
weight of its derivations, and zero if it has none. -/
theorem Parse.probability_optimal (hu : UnitProducts W)
    (hone : ∀ {x : W}, InUnit x → x * 1 = x) (hg : g.Classified)
    (hw : g.WeightsIn fun w => InUnit w) {limit : Nat} (hlimit : turnBound g tokens ≤ limit) :
    ∃ p, Parse.ofTokens limit g tokens = .ok p ∧
      (g.Derives (.ofSymbol g.start) tokens →
        IsGreatest (g.derivationWeights tokens) p.probability) ∧
      (¬g.Derives (.ofSymbol g.start) tokens → p.probability = 0) := by
  rcases fillChart_saturated limit hu.ranking hw with h | ⟨c, h, hreach, hsaturated⟩
  · exact absurd h (fillChart_ne_outOfSteps hu hw hlimit)
  · exact ⟨⟨g, tokens.length, c⟩, by rw [Parse.ofTokens, h]; rfl,
      hsaturated.isGreatest_probability hu hone hreach hg.consistent,
      hreach.probability_eq_zero hg.consistent⟩

/-- Noun phrases with left recursion, a unit cycle of weight one and an alternative that is listed
twice. The best way to start a phrase leads around the cycle. -/
def nounPhrases : WeightedGrammar ℚ :=
  (((((((WeightedGrammar.empty "P").addFilled
    ⟨"P", [.nonterminal "P", .terminal "noun"], 1 / 2⟩ (List.cons_ne_nil _ _)).addFilled
    ⟨"P", [.nonterminal "Q"], 1⟩ (List.cons_ne_nil _ _)).addFilled
    ⟨"Q", [.nonterminal "P"], 1⟩ (List.cons_ne_nil _ _)).addFilled
    ⟨"P", [.terminal "a"], 1 / 4⟩ (List.cons_ne_nil _ _)).addFilled
    ⟨"P", [.terminal "a"], 1 / 3⟩ (List.cons_ne_nil _ _)).addFilled
    ⟨"Q", [.terminal "a"], 1 / 2⟩ (List.cons_ne_nil _ _)).listWord "noun" "dog" (3 / 4)

theorem classified_nounPhrases : nounPhrases.Classified := by
  refine WeightedGrammar.Classified.listWord ?_ _ _ _
  repeat' refine WeightedGrammar.Classified.addFilled ?_ _ (by decide +kernel)
  exact WeightedGrammar.classified_empty _

theorem weightsIn_nounPhrases : nounPhrases.WeightsIn fun w => InUnit w := by
  refine WeightedGrammar.WeightsIn.listWord ?_ _ _ (by norm_num [InUnit])
  repeat' refine WeightedGrammar.WeightsIn.addFilled ?_ _ (by norm_num [InUnit])
  exact WeightedGrammar.weightsIn_empty _

theorem Parse.probability_optimal_nounPhrases :
    (UnitProducts ℚ ∧ (∀ {x : ℚ}, InUnit x → x * 1 = x) ∧ nounPhrases.Classified ∧
      nounPhrases.WeightsIn fun w => InUnit w) ∧
    ∃ p, Parse.ofTokens (turnBound nounPhrases ["a", "dog"]) nounPhrases ["a", "dog"] = .ok p ∧
      IsGreatest (nounPhrases.derivationWeights ["a", "dog"]) p.probability := by
  have hone : ∀ {x : ℚ}, InUnit x → x * 1 = x := fun _ => mul_one _
  have hderives : nounPhrases.Derives (.ofSymbol nounPhrases.start) ["a", "dog"] := by
    have hstart : Production.ofSymbol nounPhrases.start = .nonterminal "P" := by decide +kernel
    have hword : nounPhrases.Derives (.terminal "a") ["a"] := .literal (by decide +kernel)
    have ha : nounPhrases.Derives (.nonterminal "P") ["a"] :=
      .alternative (r := ⟨"P", [.terminal "a"], 1 / 3⟩) (by decide +kernel)
        (by simp [nounPhrases, WeightedGrammar.alternatives_addFilled])
        (WeightedGrammar.DerivesAll.cons hword .nil)
    have hdog : nounPhrases.Derives (.terminal "noun") ["dog"] :=
      .listed (w := 3 / 4) ((WeightedGrammar.wordWeight?_listWord ..).trans (if_pos ⟨rfl, rfl⟩))
    rw [hstart]
    exact .alternative (r := ⟨"P", [.nonterminal "P", .terminal "noun"], 1 / 2⟩)
      (by decide +kernel) (by simp [nounPhrases, WeightedGrammar.alternatives_addFilled])
      (WeightedGrammar.DerivesAll.cons ha (WeightedGrammar.DerivesAll.cons hdog .nil))
  obtain ⟨p, hp, hgreatest, -⟩ := probability_optimal unitProducts_exact hone
    classified_nounPhrases weightsIn_nounPhrases (Nat.le_refl (turnBound nounPhrases ["a", "dog"]))
  exact ⟨⟨unitProducts_exact, hone, classified_nounPhrases, weightsIn_nounPhrases⟩, p, hp,
    hgreatest hderives⟩

example : (Parse.ofTokens 40 nounPhrases ["a", "dog"]).toOption.map Parse.probability =
    some (3 / 16) := by decide +kernel

end Earley

end TabularParsing
