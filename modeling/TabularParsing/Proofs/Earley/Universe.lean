import Mathlib.Data.Finset.Prod
import Mathlib.Data.Fintype.Basic
import Mathlib.Data.Finset.Union
import Mathlib.Data.Set.Finite.Basic
import Mathlib.Data.Set.Finite.List
import TabularParsing.Proofs.Earley.Reachable
import TabularParsing.Proofs.Weighing

/-!
# The edges and weights that a parse can meet

Only finitely many edges stand in the charts of a sentence, and only finitely many weights are not
products: those of rules and words, and one.

## Main statements

* `Reachable.edge_mem_edges`
* `finite_baseWeights`
-/
namespace TabularParsing

variable {W : Type} {g : WeightedGrammar W}

namespace WeightedGrammar

theorem mem_allRules_iff {r : WeightedRule W} :
    r ∈ g.allRules ↔ ∃ symbol, r ∈ g.alternatives symbol := by
  simp only [allRules, alternatives, List.mem_flatMap, Prod.exists,
    Std.TreeMap.mem_toList_iff_getElem?_eq_some, Std.TreeMap.getD_eq_getD_getElem?]
  refine exists_congr fun symbol => ?_
  cases g.rules[symbol]? <;> simp

theorem mem_allWords_iff {category word : String} {w : W} :
    (category, word, w) ∈ g.allWords ↔ g.wordWeight? category word = some w := by
  simp only [allWords, wordWeight?, List.mem_flatMap, List.mem_map, Prod.exists, Prod.mk.injEq,
    Std.TreeMap.mem_toList_iff_getElem?_eq_some, Option.bind_eq_bind, Option.bind_eq_some_iff]
  grind

end WeightedGrammar

namespace Earley

/-- The symbols and right-hand sides of the rules that a parse can work with. -/
def shapes (g : WeightedGrammar W) : List (String × List Production) :=
  (goalSymbol, [.ofSymbol g.start]) :: g.allRules.map (fun r => (r.symbol, r.productions)) ++
    g.allWords.map fun e => (e.1, [.terminal e.2.1])

/-- The edges over a sentence of so many words. -/
def edges (g : WeightedGrammar W) (length : Nat) : Finset Edge :=
  (shapes g).toFinset.biUnion fun shape =>
    ((Finset.range (shape.2.length + 1) ×ˢ Finset.range (length + 1)) ×ˢ
      (Finset.range (length + 1) ×ˢ (Finset.univ : Finset Bool))).image fun x =>
        ⟨shape.1, shape.2, x.1.1, x.1.2, x.2.1, x.2.2⟩

theorem mem_edges_iff {length : Nat} {e : Edge} : e ∈ edges g length ↔
    (e.symbol, e.productions) ∈ shapes g ∧ e.dot ≤ e.productions.length ∧ e.origin ≤ length ∧
      e.stop ≤ length := by
  simp only [edges, Finset.mem_biUnion, List.mem_toFinset, Finset.mem_image, Finset.mem_product,
    Finset.mem_range, Finset.mem_univ, and_true, Nat.lt_succ_iff]
  constructor
  · rintro ⟨shape, hshape, x, ⟨⟨hdot, horigin⟩, hstop⟩, rfl⟩
    exact ⟨hshape, hdot, horigin, hstop⟩
  · rintro ⟨hshape, hdot, horigin, hstop⟩
    exact ⟨_, hshape, ((e.dot, e.origin), (e.stop, e.forGoal)), ⟨⟨hdot, horigin⟩, hstop⟩, rfl⟩

/-- The rule of an item without its weight. -/
def Item.shape (i : Item W) : String × List Production := (i.symbol, i.dotted.rule.productions)

theorem Item.Proper.edge_mem_edges {i : Item W} {length : Nat} (h : i.Proper)
    (hshape : i.shape ∈ shapes g) (hstop : i.stop ≤ length) : i.edge ∈ edges g length :=
  mem_edges_iff.2 ⟨hshape, h.dot_le, Nat.le_trans h.origin_le hstop, hstop⟩

theorem goal_mem_edges [One W] (g : WeightedGrammar W) (length : Nat) :
    (Item.goal g).edge ∈ edges g length :=
  (Item.proper_goal g).edge_mem_edges (List.mem_append_left _ List.mem_cons_self) (Nat.zero_le _)

/-- The weights that are not products. -/
def baseWeights [One W] (g : WeightedGrammar W) : Set W :=
  {w | w = 1 ∨ (∃ r ∈ g.allRules, r.weight = w) ∨ ∃ e ∈ g.allWords, e.2.2 = w}

theorem finite_baseWeights [One W] (g : WeightedGrammar W) : (baseWeights g).Finite := by
  refine (Set.finite_singleton 1).union ?_
  refine Set.Finite.union ?_ ?_
  · exact (List.finite_toSet g.allRules).image WeightedRule.weight
  · exact (List.finite_toSet g.allWords).image fun e => e.2.2

theorem of_mem_baseWeights [One W] {P : W → Prop} (hg : g.WeightsIn P) (hone : P 1)
    {w : W} (hw : w ∈ baseWeights g) : P w := by
  rcases hw with rfl | ⟨r, hr, rfl⟩ | ⟨e, he, rfl⟩
  · exact hone
  · obtain ⟨symbol, hr⟩ := WeightedGrammar.mem_allRules_iff.1 hr
    exact hg.rules hr
  · exact hg.words (WeightedGrammar.mem_allWords_iff.1 he)

variable [Mul W] {tokens : List String} {c : Chart W}

theorem Infers.shape_mem {place : Nat} {i j : Item W} (hc : c.All fun i => i.shape ∈ shapes g)
    (hi : i.shape ∈ shapes g) (h : Infers g tokens c place i j) : j.shape ∈ shapes g := by
  cases h with
  | predicted _ _ _ hrule =>
    exact List.mem_append_left _ (List.mem_cons_of_mem _
      (List.mem_map.2 ⟨_, WeightedGrammar.mem_allRules_iff.2 ⟨_, hrule⟩, rfl⟩))
  | listed _ _ hw =>
    exact List.mem_append_right _
      (List.mem_map.2 ⟨_, WeightedGrammar.mem_allWords_iff.2 hw, rfl⟩)
  | literal => exact hi
  | @completed _ waiting _ _ _ hw _ _ _ => exact (hc hw : waiting.shape ∈ shapes g)

theorem Reachable.shape_mem [One W] [LT W] (h : Reachable g tokens c) :
    c.All fun i => i.shape ∈ shapes g :=
  h.all (List.mem_append_left _ List.mem_cons_self) Infers.shape_mem

/-- The items of a reachable chart have edges over the sentence. -/
theorem Reachable.edge_mem [One W] [LT W] (h : Reachable g tokens c) {place : Nat} {i : Item W}
    (hi : c.items[place]? = some i) : i.edge ∈ edges g tokens.length := by
  have hstop : i.stop < tokens.length + 1 := h.size_states ▸ h.valid.stop_lt hi
  exact (h.proper hi).edge_mem_edges (h.shape_mem hi) (Nat.lt_succ_iff.1 hstop)

/-- What follows in a reachable chart has an edge over the sentence. -/
theorem Reachable.edge_mem_edges [One W] [LT W] (h : Reachable g tokens c) {place : Nat}
    {i j : Item W} (hi : c.items[place]? = some i) (hj : Infers g tokens c place i j) :
    j.edge ∈ edges g tokens.length := by
  have hstop : j.stop < tokens.length + 1 := h.size_states ▸ h.stop_lt hi hj
  exact (hj.proper h.proper (h.proper hi)).edge_mem_edges
    (hj.shape_mem h.shape_mem (h.shape_mem hi)) (Nat.lt_succ_iff.1 hstop)

end Earley

end TabularParsing
