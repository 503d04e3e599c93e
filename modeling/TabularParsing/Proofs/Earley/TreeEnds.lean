import TabularParsing.Proofs.Earley.Tree

/-!
# Trees of charts with cycles

A tree is read along a path that repeats no place, so a path is no longer than the arena, and
reading ends whatever the children are, as long as they are items of the arena.

## Main definition

* `Chart.Closed`: dots stand in their rules, and children in the arena.

## Main statement

* `Chart.Closed.exists_tree`: every item of such a chart has a tree.
-/
namespace TabularParsing.Earley.Chart

variable {W : Type} {c : Chart W} {isCategory : String → Bool} {path : List Nat}

/-- No dot stands behind the end of its rule, and every child is an item of the arena. -/
structure Closed (c : Chart W) : Prop where
  dot_le : c.All fun i => i.dotted.dot ≤ i.dotted.rule.productions.length
  exists_child : c.All fun i => ∀ q ∈ i.children, ∃ child, c.items[q]? = some child

theorem closed_iff : c.Closed ↔ ∀ i ∈ c.items,
    i.dotted.dot ≤ i.dotted.rule.productions.length ∧ ∀ q ∈ i.children, q < c.items.size := by
  constructor
  · intro hc i hi
    obtain ⟨place, hplace⟩ := Array.mem_iff_getElem?.1 hi
    refine ⟨hc.dot_le hplace, fun q hq => ?_⟩
    obtain ⟨child, hchild⟩ := hc.exists_child hplace q hq
    exact lt_size_of_getElem? hchild
  · intro h
    constructor
    case dot_le =>
      intro place i hi
      exact (h i (Array.mem_of_getElem? hi)).1
    case exists_child =>
      intro place i hi q hq
      exact ⟨_, Array.getElem?_eq_getElem ((h i (Array.mem_of_getElem? hi)).2 q hq)⟩

instance : Decidable c.Closed := decidable_of_iff _ closed_iff.symm

/-- Children on the path are left out, so only the others need a tree. -/
theorem childTrees_ends {subtree : Nat → Except Fault (Tree W)} (ps : List Production)
    {places : List Nat} (k : Nat) (h : ∀ q ∈ places, (∃ child, c.items[q]? = some child) ∧
      (q ∉ path → ∃ t, subtree q = .ok t)) :
    ∃ ts, childTrees c isCategory path subtree ps places k = .ok ts := by
  fun_induction childTrees c isCategory path subtree ps places k with
  | case1 => exact ⟨[], rfl⟩
  | case2 places k p ps hliteral ih =>
    obtain ⟨ts, hts⟩ := ih h
    exact ⟨_, by rw [hts]; rfl⟩
  | case3 => exact ⟨[], rfl⟩
  | case4 k p ps hliteral q places ih =>
    obtain ⟨⟨⟨child, hchild⟩, hsubtree⟩, hplaces⟩ := List.forall_mem_cons.1 h
    obtain ⟨ts, hts⟩ := ih child hplaces
    simp only [item_eq_ok_iff.2 hchild, bind, Except.bind]
    split
    case isTrue => exact ⟨ts, hts⟩
    case isFalse hnew =>
      obtain ⟨t, ht⟩ := hsubtree hnew
      exact ⟨t :: ts, by rw [ht, hts]; rfl⟩

/-- What is still allowed in depth covers the places that are not yet on the path. -/
theorem treeWithin_ends (hc : c.Closed) {n place : Nat} {i : Item W}
    (hn : n + path.length = c.items.size + 1) (hsimple : c.Simple path) (hplace : place ∉ path)
    (hi : c.items[place]? = some i) : ∃ t, treeWithin c isCategory n path place = .ok t := by
  induction n generalizing path place i with
  | zero =>
    have hle := hsimple.length_le
    omega
  | succ n ih =>
    have hchildren : ∀ q ∈ i.children, (∃ child, c.items[q]? = some child) ∧
        (q ∉ place :: path → ∃ t, treeWithin c isCategory n (place :: path) q = .ok t) := by
      intro q hq
      obtain ⟨child, hchild⟩ := hc.exists_child hi q hq
      refine ⟨⟨child, hchild⟩, fun hnew => ih ?_ (hsimple.cons hplace hi) hnew hchild⟩
      rw [List.length_cons]
      omega
    obtain ⟨ts, hts⟩ : ∃ ts, childTrees c isCategory (place :: path)
        (treeWithin c isCategory n (place :: path))
        (i.dotted.rule.productions.take i.dotted.dot) i.children i.origin = .ok ts :=
      childTrees_ends _ _ hchildren
    refine ⟨.node i.symbol i.weight ⟨i.origin, i.stop⟩ ts, ?_⟩
    simp [treeWithin, item_eq_ok_iff.2 hi, Nat.not_lt.2 (hc.dot_le hi), hts, bind, Except.bind,
      pure, Except.pure]

/-- Whatever lies below what, every item has a tree. -/
theorem Closed.exists_tree (hc : c.Closed) (g : WeightedGrammar W) {place : Nat} {i : Item W}
    (hi : c.items[place]? = some i) : ∃ t, c.tree g place = .ok t :=
  treeWithin_ends hc rfl simple_nil List.not_mem_nil hi

end TabularParsing.Earley.Chart
