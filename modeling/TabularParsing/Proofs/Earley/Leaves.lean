import TabularParsing.Proofs.Earley.Acceptance
import TabularParsing.Proofs.Earley.Tiling

/-!
# Leaves are words

The leaves of a tree are the words that its item covers, each at its position, but for words that
are spelled like a category: nothing says of these that they are words, so they have no leaf.

## Main definition

* `wordLeaves`: the words of a part of the input that have leaves.

## Main statements

* `Chart.TreeAt.leaves_eq`
* `Reachable.exists_tree?`: an accepted sentence has a tree.
-/
namespace TabularParsing.Earley

variable {W : Type}

/-- The words of a part of the input that are not spelled like a category, as leaves. -/
def wordLeaves (isCategory : String → Bool) (tokens : List String) (i k : Nat) :
    List (String × Extent) :=
  (((segment tokens i k).zipIdx i).filter fun q => !isCategory q.1).map fun q =>
    (q.1, ⟨q.2, q.2 + 1⟩)

section WordLeaves

variable {isCategory : String → Bool} {tokens : List String} {i m k : Nat}

@[simp] theorem wordLeaves_self : wordLeaves isCategory tokens i i = [] := by
  simp [wordLeaves]

theorem wordLeaves_append (him : i ≤ m) (hmk : m ≤ k) (hm : m ≤ tokens.length) :
    wordLeaves isCategory tokens i m ++ wordLeaves isCategory tokens m k =
      wordLeaves isCategory tokens i k := by
  have hlength : i + (segment tokens i m).length = m := by
    rw [length_segment hm]
    omega
  simp only [wordLeaves]
  rw [← List.map_append, ← List.filter_append, ← segment_append tokens him hmk,
    List.zipIdx_append, hlength]

theorem wordLeaves_succ {word : String} (h : tokens[i]? = some word) :
    wordLeaves isCategory tokens i (i + 1) =
      if isCategory word then [] else [(word, ⟨i, i + 1⟩)] := by
  rw [wordLeaves, segment_succ h]
  cases hcategory : isCategory word <;> simp [hcategory]

/-- Where no word is spelled like a category every word has its leaf. -/
theorem wordLeaves_full (h : ∀ w ∈ tokens, isCategory w = false) :
    wordLeaves isCategory tokens 0 tokens.length =
      tokens.zipIdx.map fun q => (q.1, ⟨q.2, q.2 + 1⟩) := by
  rw [wordLeaves, segment_full, List.filter_eq_self.2]
  intro q hq
  simp [h q.1 (List.fst_mem_of_mem_zipIdx hq)]

end WordLeaves

namespace Chart

variable {g : WeightedGrammar W} {tokens : List String} {c : Chart W}

/-- Nothing lies below an item for a listed word, so it has a leaf only if it is no category. -/
theorem TreesBelow.leaves_listed {word : String} {k : Nat} {ts : List (Tree W)}
    (hword : tokens[k]? = some word) (h : c.TreesBelow g.isCategory [.terminal word] [] k ts) :
    ts.flatMap Tree.leaves = wordLeaves g.isCategory tokens k (k + 1) := by
  rw [wordLeaves_succ hword]
  cases h with
  | leaf hliteral h =>
    cases h
    simp_all [Production.isLiteral, Production.symbol, Production.isTerminal]
  | childless hliteral =>
    simp_all [Production.isLiteral, Production.symbol, Production.isTerminal]

mutual

/-- The leaves of the tree of an item are the words that it covers. -/
theorem TreeAt.leaves_eq (hc : c.All fun i => Tiled g tokens c i ∧ i.stop ≤ tokens.length)
    {place : Nat} {t : Tree W} {i : Item W} (hi : c.items[place]? = some i) :
    c.TreeAt g.isCategory place t →
    t.leaves = wordLeaves g.isCategory tokens i.origin i.stop
  | .node hi' hbelow => by
    obtain rfl := Option.some.inj (hi.symm.trans hi')
    obtain ⟨htiled, hstop⟩ := hc hi
    rw [Tree.leaves_node]
    cases htiled with
    | tiles htiles => exact TreesBelow.leaves_eq hc htiles hstop hbelow
    | listed hword => exact hbelow.leaves_listed hword

theorem TreesBelow.leaves_eq (hc : c.All fun i => Tiled g tokens c i ∧ i.stop ≤ tokens.length)
    {ps : List Production} {places : List Nat} {k stop : Nat} {ts : List (Tree W)}
    (htiles : Tiles g tokens c ps places k stop)
    (hstop : stop ≤ tokens.length) : c.TreesBelow g.isCategory ps places k ts →
    ts.flatMap Tree.leaves = wordLeaves g.isCategory tokens k stop
  | .nil => by
    cases htiles
    simp
  | .leaf hliteral hbelow => by
    cases htiles with
    | word _ hword htiles =>
      obtain ⟨-, hcategory⟩ := Production.isLiteral_iff.1 hliteral
      have hrest := TreesBelow.leaves_eq hc htiles hstop hbelow
      rw [List.flatMap_cons, hrest, Tree.leaves_leaf,
        ← wordLeaves_append (Nat.le_succ k) htiles.le (htiles.le.trans hstop),
        wordLeaves_succ hword, hcategory]
      rfl
    | item hliteral' => rw [hliteral] at hliteral'; cases hliteral'
  | .childless hliteral => by
    cases htiles with
    | word hliteral' => rw [hliteral] at hliteral'; cases hliteral'
  | .child hliteral hchild hat hbelow => by
    cases htiles with
    | word hliteral' => rw [hliteral] at hliteral'; cases hliteral'
    | item _ hedge _ _ _ hlt htiles =>
      obtain rfl := Option.some.inj ((edge?_of_item hchild).symm.trans hedge)
      have hfirst := TreeAt.leaves_eq hc hchild hat
      have hrest := TreesBelow.leaves_eq hc htiles hstop hbelow
      rw [List.flatMap_cons, hfirst, hrest]
      exact wordLeaves_append hlt.le htiles.le (htiles.le.trans hstop)

end

end Chart

variable [Zero W] [One W] [Mul W] [LE W] [LT W] {g : WeightedGrammar W} {tokens : List String}
variable {c : Chart W}

omit [Zero W] [LE W] in
/-- The leaves of the tree of an item of a reachable chart are the words that it covers. -/
theorem Reachable.leaves_eq (hcons : g.Consistent) (h : Reachable g tokens c) {place : Nat}
    {i : Item W} {t : Tree W} (hi : c.items[place]? = some i)
    (ht : c.TreeAt g.isCategory place t) :
    t.leaves = wordLeaves g.isCategory tokens i.origin i.stop := by
  refine Chart.TreeAt.leaves_eq (fun q j hj => ⟨h.tiled hcons hj, ?_⟩) hi ht
  have := h.valid.stop_lt hj
  rw [h.size_states] at this
  omega

omit [Zero W] [LE W] in
/-- The start symbol of an accepted sentence covers the whole of it. -/
theorem Parse.exists_goal (hcons : g.Consistent) (h : Reachable g tokens c)
    (haccepts : (⟨g, tokens.length, c⟩ : Parse W).accepts = true) :
    ∃ i, (⟨g, tokens.length, c⟩ : Parse W).goal? = some i ∧
      Tiles g tokens c [.ofSymbol g.start] i.children 0 tokens.length := by
  obtain ⟨place, i, hi, hedge⟩ := (Parse.accepts_iff hcons h).1 haccepts
  have hforGoal : i.forGoal = true := congrArg Edge.forGoal hedge
  refine ⟨i, (Parse.goal?_eq_some_iff hcons h).2 ⟨place, hi, hedge⟩, ?_⟩
  cases h.tiled hcons hi with
  | listed => cases hforGoal
  | tiles htiles =>
    have hproductions : i.dotted.rule.productions = [.ofSymbol g.start] :=
      congrArg Edge.productions hedge
    have hdot : i.dotted.dot = 1 := congrArg Edge.dot hedge
    have horigin : i.origin = 0 := congrArg Edge.origin hedge
    have hstop : i.stop = tokens.length := congrArg Edge.stop hedge
    rwa [hproductions, hdot, horigin, hstop] at htiles

/-- Below the goal of an accepted sentence lies the start symbol over the whole of it, unless the
start symbol is a word. -/
theorem Parse.exists_tree? (hu : UnitProducts W) (hw : g.WeightsIn fun w => InUnit w)
    (hcons : g.Consistent) (h : Reachable g tokens c)
    (hstart : (Production.ofSymbol g.start).isLiteral g.isCategory = false)
    (haccepts : (⟨g, tokens.length, c⟩ : Parse W).accepts = true) :
    ∃ (place : Nat) (i : Item W) (t : Tree W), c.items[place]? = some i ∧ i.symbol = g.start ∧
      i.origin = 0 ∧ i.stop = tokens.length ∧ c.TreeAt g.isCategory place t ∧
      (⟨g, tokens.length, c⟩ : Parse W).tree? = .ok (some t) := by
  obtain ⟨i, hgoal, htiles⟩ := exists_goal hcons h haccepts
  obtain ⟨q, child, hchildren, hchild, hsymbol, horigin, hstop⟩ :=
    htiles.exists_of_singleton hstart
  rw [Production.symbol_ofSymbol] at hsymbol
  obtain ⟨t, ht, hat⟩ := h.exists_tree hu hw hchild
  refine ⟨q, child, t, hchild, hsymbol, horigin, hstop, hat, ?_⟩
  simp [Parse.tree?, hgoal, hchildren, ht, Except.map]

end TabularParsing.Earley
