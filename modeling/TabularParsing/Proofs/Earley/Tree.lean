import Mathlib.Data.List.Nodup
import Mathlib.Data.Finset.Card
import TabularParsing.Earley.Derivation
import TabularParsing.Proofs.Earley.Provenance

/-!
# The tree of an item

A tree is read off a chart along a path that repeats no place, with a child that lies on the path
already left out. In a chart in which no item lies below itself nothing is ever left out: the tree
of an item has the trees of all its children.

## Main definitions

* `Production.isLiteral`: what has a leaf of its own.
* `Chart.TreeAt`, `Chart.TreesBelow`: the tree of an item with nothing left out.
* `Chart.Simple`: what a path is, items of the arena of which none comes twice.

## Main statements

* `Chart.exists_tree`, `Reachable.exists_tree`
-/
namespace TabularParsing

/-- A word of the input, and no category. -/
def Production.isLiteral (isCategory : String → Bool) (p : Production) : Bool :=
  p.isTerminal && !isCategory p.symbol

theorem Production.isLiteral_iff {isCategory : String → Bool} {p : Production} :
    p.isLiteral isCategory = true ↔ p.isTerminal = true ∧ isCategory p.symbol = false := by
  simp [isLiteral]

namespace Earley

variable {W : Type}

namespace Chart

mutual

/-- The tree of the item at a place. -/
inductive TreeAt (c : Chart W) (isCategory : String → Bool) : Nat → Tree W → Prop where
  | node {place : Nat} {i : Item W} {ts : List (Tree W)} : c.items[place]? = some i →
      TreesBelow c isCategory (i.dotted.rule.productions.take i.dotted.dot) i.children i.origin
        ts →
      TreeAt c isCategory place (.node i.symbol i.weight ⟨i.origin, i.stop⟩ ts)

/-- The trees below an item: a leaf for every production that is a word of the input, the tree of
the next child for every other one, as long as there are children. -/
inductive TreesBelow (c : Chart W) (isCategory : String → Bool) :
    List Production → List Nat → Nat → List (Tree W) → Prop where
  | nil {places : List Nat} {k : Nat} : TreesBelow c isCategory [] places k []
  | leaf {p : Production} {ps : List Production} {places : List Nat} {k : Nat}
      {ts : List (Tree W)} : p.isLiteral isCategory = true →
      TreesBelow c isCategory ps places (k + 1) ts →
      TreesBelow c isCategory (p :: ps) places k (.leaf p.symbol ⟨k, k + 1⟩ :: ts)
  | childless {p : Production} {ps : List Production} {k : Nat} :
      p.isLiteral isCategory = false →
      TreesBelow c isCategory (p :: ps) [] k []
  | child {p : Production} {ps : List Production} {q : Nat} {places : List Nat} {k : Nat}
      {child : Item W} {t : Tree W} {ts : List (Tree W)} :
      p.isLiteral isCategory = false → c.items[q]? = some child →
      TreeAt c isCategory q t → TreesBelow c isCategory ps places child.stop ts →
      TreesBelow c isCategory (p :: ps) (q :: places) k (t :: ts)

end

variable {c : Chart W} {isCategory : String → Bool} {path : List Nat}

/-- Children that are not on the path and have trees are all kept. -/
theorem childTrees_ok {subtree : Nat → Except Fault (Tree W)} {places : List Nat}
    (hplaces : ∀ q ∈ places, q ∉ path ∧ (∃ child, c.items[q]? = some child) ∧
      ∃ t, subtree q = .ok t ∧ c.TreeAt isCategory q t)
    (ps : List Production) (k : Nat) :
    ∃ ts, childTrees c isCategory path subtree ps places k = .ok ts ∧
      c.TreesBelow isCategory ps places k ts := by
  induction ps generalizing places k with
  | nil => exact ⟨[], rfl, .nil⟩
  | cons p ps ih =>
    have hcondition : (p.isTerminal && !isCategory p.symbol) = p.isLiteral isCategory := rfl
    unfold childTrees
    rw [hcondition]
    cases hliteral : p.isLiteral isCategory with
    | true =>
      obtain ⟨ts, hts, hbelow⟩ := ih hplaces (k + 1)
      refine ⟨_, ?_, .leaf hliteral hbelow⟩
      simp [hts, bind, Except.bind, pure, Except.pure]
    | false =>
      cases places with
      | nil => exact ⟨[], rfl, .childless hliteral⟩
      | cons q places =>
        obtain ⟨hq, ⟨child, hchild⟩, t, ht, hat⟩ := hplaces q List.mem_cons_self
        obtain ⟨ts, hts, hbelow⟩ :=
          ih (fun q hq => hplaces q (List.mem_cons_of_mem _ hq)) child.stop
        refine ⟨t :: ts, ?_, .child hliteral hchild hat hbelow⟩
        simp [item_eq_ok_iff.2 hchild, hq, ht, hts, bind, Except.bind, pure, Except.pure]

/-- Items of the arena, none of them twice. -/
def Simple (c : Chart W) (places : List Nat) : Prop :=
  places.Nodup ∧ ∀ q ∈ places, q < c.items.size

theorem simple_nil : c.Simple [] := ⟨List.nodup_nil, by simp⟩

theorem Simple.cons {place : Nat} {i : Item W} (h : c.Simple path) (hnew : place ∉ path)
    (hi : c.items[place]? = some i) : c.Simple (place :: path) :=
  ⟨List.nodup_cons.2 ⟨hnew, h.1⟩, List.forall_mem_cons.2 ⟨lt_size_of_getElem? hi, h.2⟩⟩

/-- A path that repeats no place is no longer than the arena. -/
theorem Simple.length_le (h : c.Simple path) : path.length ≤ c.items.size := by
  have hsubset : path.toFinset ⊆ Finset.range c.items.size := by
    intro a ha
    exact Finset.mem_range.2 (h.2 a (List.mem_toFinset.1 ha))
  have hcard := Finset.card_le_card hsubset
  rwa [List.toFinset_card_of_nodup h.1, Finset.card_range] at hcard

/-- Where no item lies below itself the tree of an item is read off with nothing left out. -/
theorem treeWithin_ok (hbelow : ∀ p, ¬Relation.TransGen c.Child p p)
    (hdot : c.All fun i => i.dotted.dot ≤ i.dotted.rule.productions.length)
    (hchildren : c.All fun i => ∀ q ∈ i.children, ∃ child, c.items[q]? = some child)
    {n place : Nat} {i : Item W} (hn : n + path.length = c.items.size + 1)
    (hsimple : c.Simple path) (habove : ∀ a ∈ path, Relation.TransGen c.Child place a)
    (hi : c.items[place]? = some i) :
    ∃ t, treeWithin c isCategory n path place = .ok t ∧ c.TreeAt isCategory place t := by
  induction n generalizing path place i with
  | zero =>
    have := hsimple.length_le
    omega
  | succ n ih =>
    have hplace : place ∉ path := fun hmem => hbelow place (habove place hmem)
    have hsub : ∀ q ∈ i.children, q ∉ place :: path ∧ (∃ child, c.items[q]? = some child) ∧
        ∃ t, treeWithin c isCategory n (place :: path) q = .ok t ∧ c.TreeAt isCategory q t := by
      intro q hq
      have hchild : c.Child q place := ⟨i, hi, hq⟩
      have habove' : ∀ a ∈ place :: path, Relation.TransGen c.Child q a := by
        intro a ha
        rcases List.mem_cons.1 ha with rfl | ha
        · exact .single hchild
        · exact .head hchild (habove a ha)
      obtain ⟨child, hitem⟩ := hchildren hi q hq
      refine ⟨fun hmem => hbelow q (habove' q hmem), ⟨child, hitem⟩, ?_⟩
      refine ih ?_ (hsimple.cons hplace hi) habove' hitem
      rw [List.length_cons]
      omega
    obtain ⟨ts, hts, hbelow'⟩ :=
      childTrees_ok hsub (i.dotted.rule.productions.take i.dotted.dot) i.origin
    refine ⟨_, ?_, .node hi hbelow'⟩
    unfold treeWithin
    simp [item_eq_ok_iff.2 hi, Nat.not_lt.2 (hdot hi), hts, bind, Except.bind, pure, Except.pure]

theorem exists_tree (hbelow : ∀ p, ¬Relation.TransGen c.Child p p)
    (hdot : c.All fun i => i.dotted.dot ≤ i.dotted.rule.productions.length)
    (hchildren : c.All fun i => ∀ q ∈ i.children, ∃ child, c.items[q]? = some child)
    (g : WeightedGrammar W) {place : Nat} {i : Item W} (hi : c.items[place]? = some i) :
    ∃ t, c.tree g place = .ok t ∧ c.TreeAt g.isCategory place t :=
  treeWithin_ok hbelow hdot hchildren rfl simple_nil (fun _ h => by cases h) hi

end Chart

variable [Zero W] [One W] [Mul W] [LE W] [LT W] {g : WeightedGrammar W} {tokens : List String}
variable {c : Chart W}

/-- Every item of a reachable chart has its tree. -/
theorem Reachable.exists_tree (hu : UnitProducts W) (hg : g.WeightsIn fun w => InUnit w)
    (h : Reachable g tokens c) {place : Nat} {i : Item W} (hi : c.items[place]? = some i) :
    ∃ t, c.tree g place = .ok t ∧ c.TreeAt g.isCategory place t := by
  refine Chart.exists_tree (h.not_below_self hu hg) (fun _ _ hi => (h.proper hi).dot_le) ?_ g hi
  intro p i hi q hq
  obtain ⟨child, hchild, -⟩ := (h.grounded hu hg).supports hi q hq
  exact ⟨child, hchild⟩

end Earley

end TabularParsing
