import Mathlib.Logic.Relation
import TabularParsing.Proofs.Earley.Saturation

/-!
# No item lies below itself

The children of an item are places, and an item that improves takes the place of a lighter one, so
what stands at a place of a child may be younger than its parent. Then it is heavier than what the
parent was built on, and the parent is no heavier than that. So from a parent to a child either the
weight rises, or it stays and the child is older. Neither leads back, whatever cycles of unit rules
the grammar has.

## Main definitions

* `Chart.Child`: what lies directly below an item.
* `Chart.Supports`: the children of an item stand in the chart and are no lighter.
* `Chart.Precedes`, `Chart.Grounded`: every child is heavier or as heavy and older.

## Main statements

* `Chart.Grounded.not_below_self`
* `Reachable.grounded`
-/
namespace TabularParsing.Earley

variable {W : Type}

namespace Chart

/-- The item at one place is a child of the item at the other. -/
def Child (c : Chart W) (q p : Nat) : Prop := ∃ i, c.items[p]? = some i ∧ q ∈ i.children

section Order

variable [LE W]

/-- The children of an item stand in the chart and are no lighter. -/
def Supports (c : Chart W) (i : Item W) : Prop :=
  ∀ q ∈ i.children, ∃ child, c.items[q]? = some child ∧ i.weight ≤ child.weight

variable [LT W]

/-- The item at `q` is heavier than the item at `p`, or as heavy and older. -/
def Precedes (c : Chart W) (time : Nat → Nat) (q p : Nat) : Prop :=
  ∃ i j, c.items[p]? = some i ∧ c.items[q]? = some j ∧ i.weight ≤ j.weight ∧
    (i.weight < j.weight ∨ time q < time p)

/-- Times can be told at which the items were put where they stand, so that every child precedes
its parent. -/
def Grounded (c : Chart W) : Prop :=
  ∃ (time : Nat → Nat) (now : Nat), ∀ ⦃p : Nat⦄ ⦃i : Item W⦄, c.items[p]? = some i →
    time p < now ∧ ∀ q ∈ i.children, c.Precedes time q p

variable [Zero W] [One W] {c c' : Chart W}

theorem Precedes.trans (hle : TotalOn fun w : W => InUnit w) (hc : c.All fun i => InUnit i.weight)
    {time : Nat → Nat} {q p r : Nat} (h : c.Precedes time q p) (h' : c.Precedes time p r) :
    c.Precedes time q r := by
  obtain ⟨i, j, hi, hj, hij, hor⟩ := h
  obtain ⟨k, i', hk, hi', hki, hor'⟩ := h'
  obtain rfl := Option.some.inj (hi.symm.trans hi')
  refine ⟨k, j, hk, hj, hle.trans (hc hk) (hc hi) (hc hj) hki hij, ?_⟩
  rcases hor with hlt | hlt
  · exact .inl (hle.lt_of_le_of_lt (hc hk) (hc hi) (hc hj) hki hlt)
  · rcases hor' with hlt' | hlt'
    · exact .inl (hle.lt_of_lt_of_le (hc hk) (hc hi) (hc hj) hlt' hij)
    · exact .inr (hlt.trans hlt')

theorem Precedes.irrefl (hle : TotalOn fun w : W => InUnit w)
    (hc : c.All fun i => InUnit i.weight) {time : Nat → Nat} {p : Nat} :
    ¬c.Precedes time p p := by
  rintro ⟨i, j, hi, hj, -, hor⟩
  obtain rfl := Option.some.inj (hi.symm.trans hj)
  rcases hor with hlt | hlt
  · exact (hle.lt_iff (hc hi) (hc hi)).1 hlt (hle.refl (hc hi))
  · exact Nat.lt_irrefl _ hlt

/-- No item lies below itself. -/
theorem Grounded.not_below_self (hle : TotalOn fun w : W => InUnit w)
    (hc : c.All fun i => InUnit i.weight) (h : c.Grounded) (p : Nat) :
    ¬Relation.TransGen c.Child p p := by
  obtain ⟨time, now, htime⟩ := h
  have hchild {q r : Nat} (h : c.Child q r) : c.Precedes time q r := by
    obtain ⟨i, hi, hq⟩ := h
    exact (htime hi).2 q hq
  have hbelow {q : Nat} (h : Relation.TransGen c.Child q p) : c.Precedes time q p := by
    induction h with
    | single h => exact hchild h
    | tail _ h ih => exact ih.trans hle hc (hchild h)
  exact fun h => Precedes.irrefl hle hc (hbelow h)

omit [Zero W] [One W] in
theorem Grounded.supports (h : c.Grounded) : c.All c.Supports := by
  obtain ⟨time, now, htime⟩ := h
  intro p i hi q hq
  obtain ⟨i', child, hi', hchild, hle, -⟩ := (htime hi).2 q hq
  obtain rfl := Option.some.inj (hi.symm.trans hi')
  exact ⟨child, hchild, hle⟩

section Added

variable {j : Item W} {insertion : Insertion}

/-- What supports an item goes on to do so when it improves. -/
theorem Supports.added (hle : TotalOn fun w : W => InUnit w) (hc : c.All fun i => InUnit i.weight)
    (hj : InUnit j.weight) {i : Item W} (hi : InUnit i.weight) (h : c.Supports i)
    (hadd : c.Added j insertion c') : c'.Supports i := by
  intro q hq
  obtain ⟨child, hchild, hweight⟩ := h q hq
  rcases hadd.kept_or_replaced hchild with hchild' | ⟨hj', -, hlt, -⟩
  · exact ⟨child, hchild', hweight⟩
  · exact ⟨j, hj', hle.trans hi (hc hchild) hj hweight (hle.le_of_lt (hc hchild) hj hlt)⟩

/-- An item that is put in a free place or in that of a lighter item is the youngest. -/
theorem Grounded.put (hle : TotalOn fun w : W => InUnit w) (hc : c.All fun i => InUnit i.weight)
    (hj : InUnit j.weight) (h : c.Grounded) (hsupports : c.Supports j) (place : Nat)
    (hput : ∀ p : Nat, c'.items[p]? = if p = place then some j else c.items[p]?)
    (hlighter : ∀ {old : Item W}, c.items[place]? = some old → old.weight < j.weight) :
    c'.Grounded := by
  obtain ⟨time, now, htime⟩ := h
  refine ⟨Function.update time place now, now + 1, fun p i hi => ?_⟩
  rw [hput] at hi
  split at hi
  · rename_i hp
    obtain rfl := Option.some.inj hi
    subst hp
    refine ⟨by simp, fun q hq => ?_⟩
    obtain ⟨child, hchild, hweight⟩ := hsupports q hq
    have hne : q ≠ p := by
      rintro rfl
      exact (hle.lt_iff (hc hchild) hj).1 (hlighter hchild) hweight
    refine ⟨j, child, by rw [hput, if_pos rfl], by rw [hput, if_neg hne, hchild], hweight, .inr ?_⟩
    rw [Function.update_of_ne hne, Function.update_self]
    exact (htime hchild).1
  · rename_i hp
    obtain ⟨hnow, hprecedes⟩ := htime hi
    rw [Function.update_of_ne hp]
    refine ⟨Nat.lt_succ_of_lt hnow, fun q hq => ?_⟩
    obtain ⟨i', child, hi', hchild, hweight, hor⟩ := hprecedes q hq
    obtain rfl := Option.some.inj (hi.symm.trans hi')
    have hi₁ : c'.items[p]? = some i := by rw [hput, if_neg hp, hi]
    by_cases hqp : q = place
    · subst hqp
      have hlt := hle.lt_of_le_of_lt (hc hi) (hc hchild) hj hweight (hlighter hchild)
      exact ⟨i, j, hi₁, by rw [hput, if_pos rfl], hle.le_of_lt (hc hi) hj hlt, .inl hlt⟩
    · refine ⟨i, child, hi₁, by rw [hput, if_neg hqp, hchild], hweight, ?_⟩
      rwa [Function.update_of_ne hqp, Function.update_of_ne hp]

theorem Added.grounded (hle : TotalOn fun w : W => InUnit w) (hc : c.All fun i => InUnit i.weight)
    (hj : InUnit j.weight) (h : c.Grounded) (hsupports : c.Supports j)
    (hadd : c.Added j insertion c') : c'.Grounded := by
  cases hadd with
  | new _ =>
    refine h.put hle hc hj hsupports c.items.size (fun p => getElem?_items_push) fun hold => ?_
    simp at hold
  | @improved _ place _ _ _ _ hold _ hlt =>
    refine h.put hle hc hj hsupports place (fun p => ?_) fun hold' => ?_
    · simp only [getElem?_items_replace hold, eq_comm]
    · exact Option.some.inj (hold.symm.trans hold') ▸ hlt
  | kept _ _ _ => exact h

theorem Adds.grounded {js : List (Item W)} {improved : List Nat}
    (hle : TotalOn fun w : W => InUnit w) (hc : c.All fun i => InUnit i.weight)
    (hjs : ∀ j ∈ js, InUnit j.weight) (h : c.Grounded) (hsupports : ∀ j ∈ js, c.Supports j)
    (hadds : c.Adds js improved c') : c'.Grounded := by
  induction hadds with
  | nil => exact h
  | cons hadd _ ih =>
    have hj := hjs _ List.mem_cons_self
    have hrest := fun j hj => hjs j (List.mem_cons_of_mem _ hj)
    refine ih (hadd.all hc hj) hrest (hadd.grounded hle hc hj h (hsupports _ List.mem_cons_self)) ?_
    intro j' hj'
    exact (hsupports j' (List.mem_cons_of_mem _ hj')).added hle hc hj (hrest j' hj') hadd

end Added

end Order

end Chart

variable [Zero W] [One W] [Mul W] [LE W] [LT W] {g : WeightedGrammar W} {tokens : List String}
variable {c : Chart W}

/-- What follows from an item is no heavier than its children. -/
theorem Infers.supports (hu : UnitProducts W) (hc : c.All fun i => InUnit i.weight)
    (hsupports : c.All c.Supports) {place : Nat} {i j : Item W} (hi : c.items[place]? = some i)
    (h : Infers g tokens c place i j) : c.Supports j := by
  cases h with
  | predicted => exact fun q hq => by cases hq
  | listed => exact fun q hq => by cases hq
  | literal => exact fun q hq => hsupports hi q hq
  | completed _ _ hw _ _ _ =>
    intro q hq
    rcases List.mem_append.1 hq with hq | hq
    · obtain ⟨child, hchild, hweight⟩ := hsupports hw q hq
      exact ⟨child, hchild, hu.total.trans (hu.inUnit_mul (hc hi) (hc hw)) (hc hw) (hc hchild)
        (hu.mul_le_right (hc hi) (hc hw)) hweight⟩
    · obtain rfl := List.mem_singleton.1 hq
      exact ⟨i, hi, hu.mul_le_left (hc hi) (hc hw)⟩

theorem Reachable.grounded (hu : UnitProducts W) (hg : g.WeightsIn fun w => InUnit w)
    (h : Reachable g tokens c) : c.Grounded := by
  induction h with
  | initial =>
    refine ⟨fun _ => 0, 1, fun p i hi => ⟨Nat.one_pos, ?_⟩⟩
    rw [(getElem?_items_initialChart.1 hi).2]
    exact fun q hq => by cases hq
  | turn hreach hi hadds hjs ih =>
    have hc := hreach.weights hu.ranking hg
    exact hadds.grounded hu.total hc (hreach.weights_turn hu.ranking hg hi hjs) ih
      fun j hj => ((hjs j).1 hj).supports hu hc ih.supports hi

/-- In a reachable chart no item lies below itself. -/
theorem Reachable.not_below_self (hu : UnitProducts W) (hg : g.WeightsIn fun w => InUnit w)
    (h : Reachable g tokens c) (p : Nat) : ¬Relation.TransGen c.Child p p :=
  (h.grounded hu hg).not_below_self hu.total (h.weights hu.ranking hg) p

end TabularParsing.Earley
