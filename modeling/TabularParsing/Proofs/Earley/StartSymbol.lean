import TabularParsing.Proofs.Earley.Leaves
import TabularParsing.Proofs.Earley.Termination
import TabularParsing.Proofs.WeightedGrammar.Sources

/-!
# Trees below the start symbol

A sentence has a tree if and only if it is accepted, and the tree is a branch for the start symbol
over the whole sentence, if the start symbol is a category or begins with an uppercase letter. A
start symbol of any other kind stands for itself: it is accepted as the only word of a sentence, but
no item is completed below the goal, and there is no tree.

## Main statement

* `Parse.tree_iff_accepts`
-/
namespace TabularParsing

theorem WeightedGrammar.derives_iff_of_isLiteral {W : Type} {g : WeightedGrammar W}
    {p : Production} {ws : List String} (h : p.isLiteral g.isCategory = true) :
    g.Derives p ws ↔ ws = [p.symbol] := by
  obtain ⟨hterminal, hcategory⟩ := Production.isLiteral_iff.1 h
  cases p with
  | nonterminal s => cases hterminal
  | terminal s =>
    refine ⟨fun hderives => ?_, fun hws => hws ▸ .literal hcategory⟩
    cases hderives with
    | listed hw =>
      rw [isCategory_of_wordWeight? hw] at hcategory
      cases hcategory
    | literal => rfl

/-- Uppercase letters and categories are told from literal words. -/
theorem Production.isLiteral_ofSymbol (isCategory : String → Bool) (s : String) :
    (ofSymbol s).isLiteral isCategory = !(Text.startsUppercase s || isCategory s) := by
  unfold ofSymbol
  cases h : Text.startsUppercase s <;> simp [isLiteral, isTerminal, symbol]

namespace Earley.Parse

section

variable {W : Type} {g : WeightedGrammar W} {tokens : List String} {c : Chart W}

theorem tree?_of_not_accepts {p : Parse W} (h : ¬ p.accepts = true) : p.tree? = .ok none := by
  have hgoals : p.goals = [] := by simpa [accepts] using h
  rw [tree?, goal?, hgoals]
  rfl

/-- A goal that is completed over a literal word has no children. -/
theorem tree?_of_isLiteral [One W] [Mul W] [LT W] (hcons : g.Consistent)
    (h : Reachable g tokens c)
    (hstart : (Production.ofSymbol g.start).isLiteral g.isCategory = true) :
    (⟨g, tokens.length, c⟩ : Parse W).tree? = .ok none := by
  by_cases haccepts : (⟨g, tokens.length, c⟩ : Parse W).accepts = true
  · obtain ⟨i, hgoal, htiles⟩ := exists_goal hcons h haccepts
    simp [tree?, hgoal, htiles.places_eq_nil hstart]
  · exact tree?_of_not_accepts haccepts

end

/-- A grammar may be read from a text or a document or built by adding rules and words, and may
have any start symbol; its weights are in the unit interval. Then every sentence is parsed. If the
start symbol is a category or begins with an uppercase letter, a sentence is accepted exactly if it
has a tree, and the tree is a branch for the start symbol over the whole sentence. With any other
start symbol the sentence of that one word is accepted and nothing else is, and no sentence has a
tree. -/
theorem tree_iff_accepts {g : WeightedGrammar Float} (hg : g.Made)
    (hw : g.WeightsIn fun w => InUnit w) (tokens : List String) :
    (∀ limit, turnBound g tokens ≤ limit → ∃ p, ofTokens limit g tokens = .ok p) ∧
    ∀ limit p, ofTokens limit g tokens = .ok p →
      ((Text.startsUppercase g.start || g.isCategory g.start) = true →
        ∃ o, p.tree? = .ok o ∧ (p.accepts = true ↔ o.isSome = true) ∧
          ∀ t, o = some t → ∃ w ts, t = .node g.start w ⟨0, tokens.length⟩ ts) ∧
      ((Text.startsUppercase g.start || g.isCategory g.start) = false →
        p.tree? = .ok none ∧ (p.accepts = true ↔ tokens = [g.start])) := by
  have hu := Double.unitProducts_double
  have hcons := hg.classified.consistent
  have hliteral := Production.isLiteral_ofSymbol g.isCategory g.start
  constructor
  · intro limit hlimit
    obtain ⟨c, hp, -⟩ := exists_ofTokens hu.ranking hw (fillChart_ne_outOfSteps hu hw hlimit)
    exact ⟨_, hp⟩
  · intro limit p hp
    obtain ⟨c, rfl, hreach, hsaturated⟩ := exists_saturated hu.ranking hw hp
    refine ⟨fun hstart => ?_, fun hstart => ?_⟩
    · rw [hstart] at hliteral
      by_cases haccepts : (⟨g, tokens.length, c⟩ : Parse Float).accepts = true
      · obtain ⟨place, i, t, hi, hsymbol, horigin, hstop, hat, ht⟩ :=
          exists_tree? hu hw hcons hreach hliteral haccepts
        refine ⟨some t, ht, by simp [haccepts], fun t' ht' => ?_⟩
        obtain rfl := Option.some.inj ht'
        cases hat with
        | node hi' _ =>
          obtain rfl := Option.some.inj (hi.symm.trans hi')
          exact ⟨_, _, by rw [hsymbol, horigin, hstop]⟩
      · exact ⟨none, tree?_of_not_accepts haccepts, by simp [haccepts], by simp⟩
    · rw [hstart] at hliteral
      refine ⟨tree?_of_isLiteral hcons hreach hliteral, ?_⟩
      rw [hsaturated.accepts_iff hreach hcons, WeightedGrammar.derives_iff_of_isLiteral hliteral,
        Production.symbol_ofSymbol]

/-- The lexicon may hold the start symbol. -/
theorem tree_iff_accepts_noun :
    ∃ g : WeightedGrammar Float, g.Made ∧ (g.WeightsIn fun w => InUnit w) ∧ g.start = "noun" ∧
      ∃ p, ofTokens 20 g ["dog"] = .ok p ∧ p.accepts = true ∧
        ∃ w ts, p.tree? = .ok (some (.node "noun" w ⟨0, 1⟩ ts)) := by
  have hrun : ((WeightedGrammar.ofText "S -> noun\nnoun -> dog 0.5\n").toOption.any fun g =>
      g.isCategory "noun" &&
        (ofTokens 20 (g.startAt "noun") ["dog"]).toOption.any fun p => p.accepts) = true := by
    decide +kernel
  simp only [Option.any_eq_true, Bool.and_eq_true, toOption_eq_some_iff] at hrun
  obtain ⟨g, hg, hcategory, p, hp, haccepts⟩ := hrun
  have hmade : (g.startAt "noun").Made := .startAt "noun" (.ofText hg)
  have hw : (g.startAt "noun").WeightsIn fun w => InUnit w :=
    (WeightedGrammar.weightsIn_of_ofText hg).startAt "noun"
  obtain ⟨o, ho, hiff, hnode⟩ := ((tree_iff_accepts hmade hw ["dog"]).2 20 p hp).1
    (Bool.or_eq_true_iff.2 (.inr hcategory))
  obtain ⟨t, rfl⟩ := Option.isSome_iff_exists.1 (hiff.1 haccepts)
  obtain ⟨w, ts, rfl⟩ := hnode t rfl
  exact ⟨_, hmade, hw, rfl, p, hp, haccepts, w, ts, ho⟩

/-- A start symbol that is a literal word is accepted, and has no tree. -/
theorem tree?_ne_literal_start :
    ∃ g : WeightedGrammar Float, g.Made ∧ (g.WeightsIn fun w => InUnit w) ∧
      ∃ p, ofTokens 20 g ["a"] = .ok p ∧ p.accepts = true ∧ p.tree? = .ok none := by
  have hrun : ((WeightedGrammar.ofText "S -> a\n").toOption.any fun g =>
      (ofTokens 20 (g.startAt "a") ["a"]).toOption.any fun p =>
        p.accepts && p.tree?.toOption.any Option.isNone) = true := by decide +kernel
  simp only [Option.any_eq_true, Bool.and_eq_true, toOption_eq_some_iff,
    Option.isNone_iff_eq_none] at hrun
  obtain ⟨g, hg, p, hp, haccepts, o, ho, rfl⟩ := hrun
  exact ⟨_, .startAt "a" (.ofText hg), (WeightedGrammar.weightsIn_of_ofText hg).startAt "a", p, hp,
    haccepts, ho⟩

end Earley.Parse

end TabularParsing
