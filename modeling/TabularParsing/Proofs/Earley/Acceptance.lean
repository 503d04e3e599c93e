import Mathlib.Algebra.Group.Nat.Defs
import TabularParsing.Earley.Parse
import TabularParsing.Proofs.Earley.Completeness
import TabularParsing.Proofs.Earley.Soundness

/-!
# Acceptance is sound and complete

A sentence is accepted exactly if the start symbol derives it, whatever the weights, as long as the
parse ends.

## Main statement

* `Earley.Parse.accepts_iff_derives`
-/
namespace TabularParsing.Earley

variable {W : Type} [One W] [Mul W] [LT W]
variable {g : WeightedGrammar W} {tokens : List String} {c : Chart W}

/-- The goal rule, completed over a sentence. -/
def goalEdge (g : WeightedGrammar W) (tokens : List String) : Edge :=
  (Item.goal g).edge.finish tokens.length

namespace Parse

/-- Where the goal rule is completed over the sentence there is a goal. -/
theorem mem_goals (hreach : Reachable g tokens c) {place : Nat} {i : Item W}
    (hi : c.items[place]? = some i) (hedge : i.edge = goalEdge g tokens) :
    place ∈ (⟨g, tokens.length, c⟩ : Parse W).goals := by
  have hs := Array.getElem?_eq_getElem (show tokens.length < c.states.size by
    rw [hreach.size_states]; exact Nat.lt_succ_self _)
  have hnext : i.dotted.next? = none :=
    (congrArg Edge.next? hedge).trans (Edge.next?_finish _ _)
  have hforGoal : i.forGoal = true := congrArg Edge.forGoal hedge
  have horigin : i.origin = 0 := congrArg Edge.origin hedge
  rw [goals, List.mem_filter, hs, Option.getD_some, Array.mem_toList_iff,
    hreach.valid.mem_state_iff hs]
  refine ⟨⟨i, hi, congrArg Edge.stop hedge⟩, ?_⟩
  simp [hi, isGoal, hforGoal, horigin, Item.isComplete, DottedRule.isActive_eq_false_iff.2 hnext]

/-- The goals of a parse are the places where the goal rule is completed over the sentence. -/
theorem mem_goals_iff (hcons : g.Consistent) (hreach : Reachable g tokens c) {place : Nat} :
    place ∈ (⟨g, tokens.length, c⟩ : Parse W).goals ↔
      ∃ i, c.items[place]? = some i ∧ i.edge = goalEdge g tokens := by
  refine ⟨fun hmem => ?_, fun ⟨i, hi, hedge⟩ => mem_goals hreach hi hedge⟩
  have hs := Array.getElem?_eq_getElem (show tokens.length < c.states.size by
    rw [hreach.size_states]; exact Nat.lt_succ_self _)
  rw [goals, List.mem_filter, hs, Option.getD_some, Array.mem_toList_iff,
    hreach.valid.mem_state_iff hs] at hmem
  obtain ⟨⟨i, hi, hstop⟩, hgoal⟩ := hmem
  simp only [hi, Option.any_some, isGoal, Bool.and_eq_true, beq_iff_eq, Item.isComplete,
    Bool.not_eq_true', DottedRule.isActive_eq_false_iff] at hgoal
  obtain ⟨⟨hforGoal, hnext⟩, horigin⟩ := hgoal
  refine ⟨i, hi, ?_⟩
  have hdot : i.dotted.dot = i.dotted.rule.productions.length :=
    Nat.le_antisymm (hreach.proper hi).dot_le (List.getElem?_eq_none_iff.1 hnext)
  have hrule : i.dotted.rule = ⟨goalSymbol, [.ofSymbol g.start], 1⟩ := by
    cases hreach.sound hcons hi with
    | spelled hstems =>
      cases hstems with
      | goal _ _ hrule => exact hrule
      | alternative hforGoal' => rw [hforGoal] at hforGoal'; cases hforGoal'
    | listed => cases hforGoal
  simp only [Item.edge, Item.symbol, hrule, hdot, horigin, hstop, hforGoal]
  rfl

theorem accepts_iff (hcons : g.Consistent) (hreach : Reachable g tokens c) :
    (⟨g, tokens.length, c⟩ : Parse W).accepts = true ↔
      ∃ (place : Nat) (i : Item W), c.items[place]? = some i ∧ i.edge = goalEdge g tokens := by
  rw [accepts, Bool.not_eq_true', List.isEmpty_eq_false_iff_exists_mem]
  exact exists_congr fun place => mem_goals_iff hcons hreach

/-- The goal of an accepted sentence is the one item with the goal's edge. -/
theorem goal?_eq_some_iff (hcons : g.Consistent) (hreach : Reachable g tokens c) {i : Item W} :
    (⟨g, tokens.length, c⟩ : Parse W).goal? = some i ↔
      ∃ place : Nat, c.items[place]? = some i ∧ i.edge = goalEdge g tokens := by
  constructor
  · intro h
    obtain ⟨place, hplace, hi⟩ := Option.bind_eq_some_iff.1 h
    obtain ⟨i', hi', hedge⟩ := (mem_goals_iff hcons hreach).1 (List.mem_of_mem_head? hplace)
    obtain rfl := Option.some.inj (hi.symm.trans hi')
    exact ⟨place, hi, hedge⟩
  · rintro ⟨place, hi, hedge⟩
    have hmem := (mem_goals_iff hcons hreach).2 ⟨i, hi, hedge⟩
    obtain ⟨q, hq⟩ := Option.isSome_iff_exists.1
      (List.isSome_head?.2 (List.ne_nil_of_mem hmem))
    obtain ⟨i', hi', hedge'⟩ := (mem_goals_iff hcons hreach).1 (List.mem_of_mem_head? hq)
    obtain rfl := hreach.valid.apart hi hi' (hedge.trans hedge'.symm)
    exact Option.bind_eq_some_iff.2 ⟨_, hq, hi⟩

end Parse

/-- The completed goal rule weighs a derivation of the sentence. -/
theorem Reachable.weighs_goal (hcons : g.Consistent) (hreach : Reachable g tokens c) {place : Nat}
    {i : Item W} (hi : c.items[place]? = some i) (hedge : i.edge = goalEdge g tokens) :
    ∃ y, g.Weighs (.ofSymbol g.start) tokens y ∧ i.weight = times y 1 := by
  have hforGoal : i.forGoal = true := congrArg Edge.forGoal hedge
  have hdot : i.dotted.dot = 1 := congrArg Edge.dot hedge
  have hstop : i.stop = tokens.length := congrArg Edge.stop hedge
  cases hreach.sound hcons hi with
  | spelled hstems hweighs =>
    cases hstems with
    | goal _ horigin hrule =>
      rw [hrule, hdot, horigin, hstop, segment_full] at hweighs
      exact WeightedGrammar.weighsAll_singleton_iff.1 hweighs
    | alternative hforGoal' => rw [hforGoal] at hforGoal'; cases hforGoal'
  | listed => cases hforGoal

section Saturated

variable {P : W → Prop} {le : W → W → Prop}

/-- In a saturated chart a sentence that the start symbol derives is accepted. -/
theorem Saturated.accepts (h : Saturated P le g tokens c) (hreach : Reachable g tokens c)
    (hderives : g.Derives (.ofSymbol g.start) tokens) :
    (⟨g, tokens.length, c⟩ : Parse W).accepts = true := by
  obtain ⟨y, hy⟩ := WeightedGrammar.exists_weighs hderives
  obtain ⟨place, i, hi, hedge, -⟩ := h.holds_completed_goal hreach hy
  rw [Parse.accepts, Bool.not_eq_true', List.isEmpty_eq_false_iff_exists_mem]
  exact ⟨place, Parse.mem_goals hreach hi hedge⟩

theorem Saturated.accepts_iff (h : Saturated P le g tokens c) (hreach : Reachable g tokens c)
    (hcons : g.Consistent) :
    (⟨g, tokens.length, c⟩ : Parse W).accepts = true ↔ g.Derives (.ofSymbol g.start) tokens := by
  refine ⟨fun haccepts => ?_, h.accepts hreach⟩
  obtain ⟨place, i, hi, hedge⟩ := (Parse.accepts_iff hcons hreach).1 haccepts
  obtain ⟨y, hy, -⟩ := hreach.weighs_goal hcons hi hedge
  exact WeightedGrammar.derives_of_weighs hy

variable [DecidableLT W]

/-- A sentence is parsed unless its chart is cut off, and the chart is saturated. -/
theorem Parse.exists_ofTokens (hr : Ranking P le) (hg : g.WeightsIn P) {limit : Nat}
    (hends : fillChart limit g tokens ≠ .error .outOfSteps) :
    ∃ c, Parse.ofTokens limit g tokens = .ok ⟨g, tokens.length, c⟩ ∧ Reachable g tokens c ∧
      Saturated P le g tokens c := by
  rcases fillChart_saturated limit hr hg with h | ⟨c, h, hreach, hsaturated⟩
  · exact absurd h hends
  · exact ⟨c, by rw [Parse.ofTokens, h]; rfl, hreach, hsaturated⟩

/-- Every parse has a saturated chart. -/
theorem Parse.exists_saturated (hr : Ranking P le) (hg : g.WeightsIn P) {limit : Nat}
    {p : Parse W} (hp : Parse.ofTokens limit g tokens = .ok p) :
    ∃ c, p = ⟨g, tokens.length, c⟩ ∧ Reachable g tokens c ∧ Saturated P le g tokens c := by
  have hends : fillChart limit g tokens ≠ .error .outOfSteps := by
    intro h
    rw [Parse.ofTokens, h] at hp
    cases hp
  obtain ⟨c, h, hreach, hsaturated⟩ := exists_ofTokens hr hg hends
  exact ⟨c, Except.ok.inj (hp.symm.trans h), hreach, hsaturated⟩

end Saturated

/-- If a parse ends, the sentence is accepted exactly if the start symbol derives it. -/
theorem Parse.accepts_iff_derives [DecidableLT W] (hg : g.Classified) {limit : Nat}
    (hends : Parse.ofTokens limit g tokens ≠ .error .outOfSteps) :
    ∃ p, Parse.ofTokens limit g tokens = .ok p ∧
      (p.accepts = true ↔ g.Derives (.ofSymbol g.start) tokens) := by
  rcases fillChart_saturated limit ranking_trivial (WeightedGrammar.weightsIn_trivial g) with
    h | ⟨c, h, hreach, hsaturated⟩
  · exact absurd (by rw [Parse.ofTokens, h]; rfl) hends
  · exact ⟨⟨g, tokens.length, c⟩, by rw [Parse.ofTokens, h]; rfl,
      hsaturated.accepts_iff hreach hg.consistent⟩

/-- Sentences that begin with a word and go on with nouns, by way of a unit cycle, an alternative
that is listed twice and a symbol that nothing rewrites. The nouns have a rule that never counts. -/
def nounChains : WeightedGrammar Nat :=
  ((((((((WeightedGrammar.empty "S").addFilled
    ⟨"S", [.nonterminal "S", .terminal "noun"], 1⟩ (List.cons_ne_nil _ _)).addFilled
    ⟨"S", [.nonterminal "T"], 1⟩ (List.cons_ne_nil _ _)).addFilled
    ⟨"T", [.nonterminal "S"], 1⟩ (List.cons_ne_nil _ _)).addFilled
    ⟨"S", [.terminal "the"], 2⟩ (List.cons_ne_nil _ _)).addFilled
    ⟨"S", [.terminal "the"], 3⟩ (List.cons_ne_nil _ _)).addFilled
    ⟨"S", [.nonterminal "U"], 4⟩ (List.cons_ne_nil _ _)).addFilled
    ⟨"noun", [.terminal "the"], 5⟩ (List.cons_ne_nil _ _)).listWord "noun" "dog" 6

theorem Parse.accepts_iff_derives_nounChains :
    nounChains.Classified ∧
    Parse.ofTokens 50 nounChains ["the", "dog", "dog"] ≠ .error .outOfSteps ∧
    ∃ p, Parse.ofTokens 50 nounChains ["the", "dog", "dog"] = .ok p ∧
      (p.accepts = true ↔
        nounChains.Derives (.ofSymbol nounChains.start) ["the", "dog", "dog"]) := by
  have hg : nounChains.Classified := by
    refine WeightedGrammar.Classified.listWord ?_ _ _ _
    repeat' refine WeightedGrammar.Classified.addFilled ?_ _ (by decide +kernel)
    exact WeightedGrammar.classified_empty _
  have hok : (Parse.ofTokens 50 nounChains ["the", "dog", "dog"]).isOk = true := by decide +kernel
  have hends : Parse.ofTokens 50 nounChains ["the", "dog", "dog"] ≠ .error .outOfSteps := by
    intro h
    rw [h] at hok
    cases hok
  exact ⟨hg, hends, Parse.accepts_iff_derives hg hends⟩

end TabularParsing.Earley
