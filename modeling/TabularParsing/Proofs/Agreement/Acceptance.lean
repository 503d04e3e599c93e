import Mathlib.Algebra.GroupWithZero.Nat
import TabularParsing.Proofs.Agreement.Conversion
import TabularParsing.Proofs.Earley.Acceptance
import TabularParsing.Proofs.Earley.Descent
import TabularParsing.Proofs.Fallible
import TabularParsing.Proofs.Recognition

/-!
# Recognition and acceptance of converted grammars

Whatever a grammar in Chomsky normal form recognises its weighted grammar accepts, unless the parse
is cut short. The converse holds where words are spelled apart: a parse then ends, whatever the
weights, for there are no unit rules. A completed nonterminal moves the dot over a word that is
spelled like it, so without that condition more is accepted than is recognised.

## Main statement

* `Earley.Parse.accepts_ofCnf`
-/
namespace TabularParsing

variable {W : Type} [Zero W]

/-- A converted word rule is no unit rule if its word is spelled apart. -/
theorem Grammar.SpelledApart.unitless {g : Grammar} {weights : RuleWeights W} {start : String}
    (h : g.SpelledApart start) : (WeightedGrammar.ofCnf g weights start).Unitless := by
  intro symbol q hq p hp
  refine ⟨WeightedGrammar.isCategory_ofCnf, fun huses => ?_⟩
  obtain ⟨⟨lhs, rhs⟩, hr, -, rfl⟩ := WeightedGrammar.mem_alternatives_ofCnf.1 hq
  cases rhs with
  | word w =>
    obtain rfl : .terminal w = p := by simpa [WeightedGrammar.ofCnfRule] using hp
    by_contra halternatives
    exact h.not_mem_nonterminals hr huses
      (WeightedGrammar.alternatives_ofCnf_ne_nil_iff.1 halternatives)
  | pair left right => simp [WeightedGrammar.ofCnfRule] at hp

namespace Earley

variable [One W] [Mul W] [LT W] [DecidableLT W]

omit [One W] [LT W] [DecidableLT W] in
theorem derives_start_ofCnf_iff {g : Grammar} {weights : RuleWeights W} {start : String}
    {tokens : List String} (hstart : Text.startsUppercase start = true) :
    (WeightedGrammar.ofCnf g weights start).Derives
        (.ofSymbol (WeightedGrammar.ofCnf g weights start).start) tokens ↔
      g.recognizes start tokens = true := by
  rw [WeightedGrammar.start_ofCnf, Production.ofSymbol, if_pos hstart,
    WeightedGrammar.derives_ofCnf_iff, Grammar.recognizes_iff]

/-- What a grammar recognises from an uppercase start its weighted grammar accepts, whatever the
weights. If no word is spelled like a nonterminal that a parse waits for, the parse ends and
accepts nothing else. -/
theorem Parse.accepts_ofCnf (g : Grammar) (weights : RuleWeights W) {start : String}
    (hstart : Text.startsUppercase start = true) (tokens : List String) :
    (∀ limit p, Parse.ofTokens limit (.ofCnf g weights start) tokens = .ok p →
      g.recognizes start tokens = true → p.accepts = true) ∧
    (g.SpelledApart start → ∃ bound, ∀ limit, bound ≤ limit →
      ∃ p, Parse.ofTokens limit (.ofCnf g weights start) tokens = .ok p ∧
        p.accepts = g.recognizes start tokens) := by
  have hweights := WeightedGrammar.weightsIn_trivial (.ofCnf g weights start)
  constructor
  · intro limit p hp hrecognizes
    obtain ⟨c, rfl, hreach, hc⟩ := exists_saturated ranking_trivial hweights hp
    exact hc.accepts hreach ((derives_start_ofCnf_iff hstart).2 hrecognizes)
  · intro hapart
    have hcons : (WeightedGrammar.ofCnf g weights start).Consistent := hapart.consistent hstart
    obtain ⟨bound, hbound⟩ := exists_fillChart_ne_outOfSteps hcons hapart.unitless tokens
    refine ⟨bound, fun limit hlimit => ?_⟩
    obtain ⟨c, hp, hreach, hc⟩ := exists_ofTokens ranking_trivial hweights (hbound limit hlimit)
    refine ⟨_, hp, ?_⟩
    rw [Bool.eq_iff_iff, hc.accepts_iff hreach hcons, derives_start_ofCnf_iff hstart]

/-- A word that is a nonterminal too, though no parse waits for it as such. -/
def namesake : Grammar :=
  .make [.pair "S" "S" "S", .word "S" "x", .word "x" "y"] (by simp)

theorem Parse.accepts_ofCnf_namesake :
    Text.startsUppercase "S" = true ∧ namesake.SpelledApart "S" ∧
    (∃ p, Parse.ofTokens 20 (.ofCnf namesake (.ones namesake : RuleWeights Nat) "S") ["x", "x"] =
      .ok p ∧ namesake.recognizes "S" ["x", "x"] = true ∧ p.accepts = true) ∧
    ∃ bound, ∀ limit, bound ≤ limit →
      ∃ p, Parse.ofTokens limit (.ofCnf namesake (.ones namesake : RuleWeights Nat) "S") ["y"] =
        .ok p ∧ p.accepts = namesake.recognizes "S" ["y"] := by
  have hstart : Text.startsUppercase "S" = true := by decide +kernel
  have hapart : namesake.SpelledApart "S" := by
    intro lhs w hr hw
    simp only [namesake, Grammar.mem_rules_make, Rule.word, Rule.pair, List.mem_cons,
      Rule.mk.injEq, Rhs.word.injEq, reduceCtorEq, and_false, List.not_mem_nil, or_false,
      false_or] at hr ⊢
    rcases hr with ⟨rfl, rfl⟩ | ⟨rfl, rfl⟩
    · refine ⟨by decide, ?_⟩
      rintro lhs left right ⟨-, rfl, rfl⟩
      exact ⟨by decide, by decide⟩
    · exact absurd hw (by decide +kernel)
  have hrecognizes : namesake.recognizes "S" ["x", "x"] = true := by decide +kernel
  have hok : (Parse.ofTokens 20 (.ofCnf namesake (.ones namesake : RuleWeights Nat) "S")
      ["x", "x"]).isOk = true := by decide +kernel
  refine ⟨hstart, hapart, ?_, (accepts_ofCnf namesake _ hstart ["y"]).2 hapart⟩
  cases hp : Parse.ofTokens 20 (.ofCnf namesake (.ones namesake : RuleWeights Nat) "S")
      ["x", "x"] with
  | error e =>
    rw [hp] at hok
    cases hok
  | ok p =>
    exact ⟨p, rfl, hrecognizes,
      (accepts_ofCnf namesake _ hstart ["x", "x"]).1 20 p hp hrecognizes⟩

/-- The word of the first rule is spelled like the left child of the second. -/
def shadowed : Grammar :=
  .make [.word "S" "X", .pair "S" "X" "Z", .word "X" "y"] (by simp)

def shadowedWeights : RuleWeights Float :=
  ((RuleWeights.empty.insert (.word "S" "X") 0.5).insert (.pair "S" "X" "Z") 0.5).insert
    (.word "X" "y") 1

/-- Over `shadowed` the completed child moves the dot over the word, though the sentence holds no
such word. -/
theorem Parse.accepts_ofCnf_ne_shadowed :
    Text.startsUppercase "S" = true ∧ "S" ∈ shadowed.nonterminals ∧
    (∃ p, Parse.ofTokens 20 (.ofCnf shadowed shadowedWeights "S") ["y"] = .ok p ∧
      p.accepts = true ∧ p.probability = 0.5) ∧
    shadowed.recognizes "S" ["y"] = false := by
  have hrun : (Parse.ofTokens 20 (.ofCnf shadowed shadowedWeights "S") ["y"]).toOption.map
      (fun p => (p.accepts, p.probability)) = some (true, 0.5) := by decide +kernel
  refine ⟨by decide +kernel, by decide +kernel, ?_, by decide +kernel⟩
  obtain ⟨p, hp, hanswer⟩ := Option.map_eq_some_iff.1 hrun
  obtain ⟨haccepts, hprobability⟩ := Prod.mk.inj hanswer
  exact ⟨p, toOption_eq_some_iff.1 hp, haccepts, hprobability⟩

end Earley

end TabularParsing
