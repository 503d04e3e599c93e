import Mathlib.Data.List.Nodup
import TabularParsing.Earley.Chart

/-!
# What adding an item does to a chart

In a valid chart a state holds the places of the items that stop there, and no two items of the
arena share an edge. An item that is added to the state it stops in either is new, or takes the
place of a lighter item with its edge, or is dropped because the item with its edge is no lighter.

## Main definitions

* `Edge`: what identifies an item.
* `Chart.Valid`: the states index the arena by stop.
* `Chart.Added`, `Chart.Adds`: what adding an item, or one after the other, does.
-/
namespace TabularParsing.Earley

/-- What identifies an item: all but its weight and how it was found. -/
structure Edge where
  symbol : String
  productions : List Production
  dot : Nat
  origin : Nat
  stop : Nat
  forGoal : Bool
  deriving DecidableEq

namespace Edge

/-- The production behind the dot. -/
def next? (e : Edge) : Option Production := e.productions[e.dot]?

/-- The edge with its dot moved over one production that ends at this position. -/
def advance (e : Edge) (stop : Nat) : Edge := { e with dot := e.dot + 1, stop := stop }

end Edge

variable {W : Type}

def Item.edge (i : Item W) : Edge :=
  ⟨i.symbol, i.dotted.rule.productions, i.dotted.dot, i.origin, i.stop, i.forGoal⟩

theorem Item.merges_iff {i j : Item W} : i.merges j = true ↔ i.edge = j.edge := by
  simp only [merges, sameEdge, DottedRule.same, WeightedRule.same, edge, symbol, Bool.and_eq_true,
    beq_iff_eq, Edge.mk.injEq]
  tauto

/-- The position at which an item was put in another's place. -/
def Insertion.position? : Insertion → Option Nat
  | .improved position => some position
  | _ => none

namespace Chart

theorem state_eq_ok_iff {c : Chart W} {k : Nat} {s : Array Nat} :
    c.state k = .ok s ↔ c.states[k]? = some s := by
  unfold state; split <;> simp_all

theorem item_eq_ok_iff {c : Chart W} {place : Nat} {i : Item W} :
    c.item place = .ok i ↔ c.items[place]? = some i := by
  unfold item; split <;> simp_all

/-- The states hold the places of the items that stop there, each once, and no two items share an
edge. -/
structure Valid (c : Chart W) : Prop where
  mem_state_iff : ∀ {k : Nat} {s : Array Nat} {place : Nat}, c.states[k]? = some s →
    (place ∈ s ↔ ∃ i, c.items[place]? = some i ∧ i.stop = k)
  stop_lt : ∀ {place : Nat} {i : Item W}, c.items[place]? = some i → i.stop < c.states.size
  nodup : ∀ {k : Nat} {s : Array Nat}, c.states[k]? = some s → s.toList.Nodup
  apart : ∀ {p q : Nat} {i j : Item W}, c.items[p]? = some i → c.items[q]? = some j →
    i.edge = j.edge → p = q

/-- The edge of the item at a place. -/
def edge? (c : Chart W) (place : Nat) : Option Edge := (c.items[place]?).map Item.edge

theorem edge?_of_item {c : Chart W} {place : Nat} {i : Item W} (h : c.items[place]? = some i) :
    c.edge? place = some i.edge := by
  rw [edge?, h, Option.map_some]

/-- Every item of the arena satisfies a predicate. -/
def All (c : Chart W) (P : Item W → Prop) : Prop :=
  ∀ ⦃place : Nat⦄ ⦃i : Item W⦄, c.items[place]? = some i → P i

theorem valid_empty (n : Nat) : (empty n : Chart W).Valid where
  mem_state_iff h := by
    simp only [empty, Array.getElem?_replicate, Option.ite_none_right_eq_some,
      Option.some.injEq] at h
    simp [← h.2, empty]
  stop_lt h := by simp [empty] at h
  nodup h := by
    simp only [empty, Array.getElem?_replicate, Option.ite_none_right_eq_some,
      Option.some.injEq] at h
    simp [← h.2]
  apart h := by simp [empty] at h

/-! ## Adding one item -/

theorem lt_size_of_getElem? {c : Chart W} {place : Nat} {i : Item W}
    (h : c.items[place]? = some i) : place < c.items.size :=
  (Array.getElem?_eq_some_iff.1 h).1

theorem getElem?_items_push {c : Chart W} {k place : Nat} {j : Item W} :
    (c.push k j).items[place]? = if place = c.items.size then some j else c.items[place]? := by
  simp [push, Array.getElem?_push]

theorem getElem?_states_push {c : Chart W} {k l : Nat} {j : Item W} :
    (c.push k j).states[l]? =
      if k = l then c.states[l]?.map (·.push c.items.size) else c.states[l]? := by
  simp [push, Array.getElem?_modify]

/-- Puts an item at a place of the arena. -/
def replace (c : Chart W) (place : Nat) (j : Item W) : Chart W :=
  ⟨c.items.setIfInBounds place j, c.states⟩

theorem getElem?_items_replace {c : Chart W} {place q : Nat} {i j : Item W}
    (h : c.items[place]? = some i) :
    (c.replace place j).items[q]? = if place = q then some j else c.items[q]? := by
  have hlt := lt_size_of_getElem? h
  rw [replace, Array.getElem?_setIfInBounds, if_pos hlt]

theorem valid_push {c : Chart W} (hc : c.Valid) {j : Item W} (hj : j.stop < c.states.size)
    (hnew : ∀ {place : Nat} {i : Item W}, c.items[place]? = some i → i.edge ≠ j.edge) :
    (c.push j.stop j).Valid where
  mem_state_iff {k s place} h := by
    rw [getElem?_states_push] at h
    have hplace : c.items[c.items.size]? = none := by simp
    split at h
    · rename_i hk
      obtain ⟨t, ht, rfl⟩ := Option.map_eq_some_iff.1 h
      rw [Array.mem_push, hc.mem_state_iff ht]
      simp only [getElem?_items_push]
      grind
    · rw [hc.mem_state_iff h]
      simp only [getElem?_items_push]
      grind
  stop_lt {place i} h := by
    rw [getElem?_items_push] at h
    rw [push, Array.size_modify]
    split at h
    · exact Option.some.inj h ▸ hj
    · exact hc.stop_lt h
  nodup {k s} h := by
    rw [getElem?_states_push] at h
    split at h
    · obtain ⟨t, ht, rfl⟩ := Option.map_eq_some_iff.1 h
      have hfresh : c.items.size ∉ t := by
        rw [hc.mem_state_iff ht]
        simp
      rw [Array.toList_push, List.nodup_append]
      refine ⟨hc.nodup ht, by simp, ?_⟩
      intro a ha b hb hab
      exact hfresh (by simp_all)
    · exact hc.nodup h
  apart {p q i i'} hp hq h := by
    rw [getElem?_items_push] at hp hq
    split at hp <;> split at hq
    · omega
    · exact absurd (Option.some.inj hp ▸ h.symm) (hnew hq)
    · exact absurd (Option.some.inj hq ▸ h) (hnew hp)
    · exact hc.apart hp hq h

theorem valid_replace {c : Chart W} (hc : c.Valid) {place : Nat} {i j : Item W}
    (hi : c.items[place]? = some i) (hedge : i.edge = j.edge) : (c.replace place j).Valid where
  mem_state_iff {k s q} h := by
    have hstop : i.stop = j.stop := congrArg Edge.stop hedge
    rw [hc.mem_state_iff h]
    simp only [getElem?_items_replace hi]
    grind
  stop_lt {q i'} h := by
    have hstop : i.stop = j.stop := congrArg Edge.stop hedge
    rw [getElem?_items_replace hi] at h
    split at h
    · exact Option.some.inj h ▸ hstop ▸ hc.stop_lt hi
    · exact hc.stop_lt h
  nodup h := hc.nodup h
  apart {p q i₁ i₂} hp hq h := by
    rw [getElem?_items_replace hi] at hp hq
    split at hp <;> split at hq
    · omega
    · obtain rfl := Option.some.inj hp
      have := hc.apart hi hq (hedge.trans h)
      omega
    · obtain rfl := Option.some.inj hq
      have := hc.apart hp hi (h.trans hedge.symm)
      omega
    · exact hc.apart hp hq h

theorem exists_of_find? {c : Chart W} {s : Array Nat} {position : Nat} {j : Item W}
    (h : c.find? s j = some position) :
    ∃ place i, s[position]? = some place ∧ c.items[place]? = some i ∧ i.edge = j.edge := by
  obtain ⟨hlt, hmerges, -⟩ := Array.findIdx?_eq_some_iff_getElem.1 h
  obtain ⟨i, hi, hij⟩ := (Option.any_eq_true _ _).1 hmerges
  exact ⟨_, i, Array.getElem?_eq_getElem hlt, hi, Item.merges_iff.1 hij⟩

theorem ne_edge_of_find? {c : Chart W} (hc : c.Valid) {s : Array Nat} {j : Item W}
    (hs : c.states[j.stop]? = some s) (h : c.find? s j = none) {place : Nat} {i : Item W}
    (hi : c.items[place]? = some i) : i.edge ≠ j.edge := by
  intro hedge
  have hmem : place ∈ s := (hc.mem_state_iff hs).2 ⟨i, hi, congrArg Edge.stop hedge⟩
  have hfalse := Array.findIdx?_eq_none_iff.1 h place hmem
  rw [hi, Option.any_some, Item.merges_iff.2 hedge] at hfalse
  cases hfalse

section Add

variable [LT W] {c c' : Chart W} {j : Item W} {insertion : Insertion}

/-- What becomes of a chart when an item is added to the state in which it stops. -/
inductive Added (c : Chart W) (j : Item W) : Insertion → Chart W → Prop where
  | new : (∀ {place : Nat} {i : Item W}, c.items[place]? = some i → i.edge ≠ j.edge) →
      Added c j .new (c.push j.stop j)
  | improved {position place : Nat} {s : Array Nat} {i : Item W} :
      c.states[j.stop]? = some s → s[position]? = some place → c.items[place]? = some i →
      i.edge = j.edge → i.weight < j.weight → Added c j (.improved position) (c.replace place j)
  | kept {place : Nat} {i : Item W} :
      c.items[place]? = some i → i.edge = j.edge → ¬i.weight < j.weight → Added c j .kept c

theorem add_ok [DecidableLT W] (hc : c.Valid) (hj : j.stop < c.states.size) :
    ∃ insertion c', c.add j.stop j = .ok (insertion, c') ∧ c.Added j insertion c' := by
  have hs := Array.getElem?_eq_getElem hj
  have hstate := state_eq_ok_iff.2 hs
  cases hfind : c.find? c.states[j.stop] j with
  | none =>
    refine ⟨.new, c.push j.stop j, ?_, .new fun hi => ne_edge_of_find? hc hs hfind hi⟩
    simp [add, hstate, hfind, bind, Except.bind, pure, Except.pure]
  | some position =>
    obtain ⟨place, i, hplace, hi, hedge⟩ := exists_of_find? hfind
    by_cases hlt : i.weight < j.weight
    · refine ⟨.improved position, c.replace place j, ?_, .improved hs hplace hi hedge hlt⟩
      simp [add, hstate, hfind, hplace, item_eq_ok_iff.2 hi, hlt, bind, Except.bind, pure,
        Except.pure, replace]
    · refine ⟨.kept, c, ?_, .kept hi hedge hlt⟩
      simp [add, hstate, hfind, hplace, item_eq_ok_iff.2 hi, hlt, bind, Except.bind, pure,
        Except.pure]

namespace Added

theorem valid (hc : c.Valid) (hj : j.stop < c.states.size) (h : c.Added j insertion c') :
    c'.Valid := by
  cases h with
  | new hnew => exact valid_push hc hj hnew
  | improved _ _ hi hedge _ => exact valid_replace hc hi hedge
  | kept _ _ _ => exact hc

theorem size_states (h : c.Added j insertion c') : c'.states.size = c.states.size := by
  cases h with
  | new _ => simp [push]
  | improved _ _ _ _ _ => rfl
  | kept _ _ _ => rfl

/-- What stands in the chart stood there before or was added. -/
theorem eq_or_eq (h : c.Added j insertion c') {place : Nat} {i : Item W}
    (hi : c'.items[place]? = some i) : c.items[place]? = some i ∨ i = j := by
  cases h with
  | new _ => rw [getElem?_items_push] at hi; grind
  | improved _ _ hold _ _ => rw [getElem?_items_replace hold] at hi; grind
  | kept _ _ _ => exact .inl hi

theorem all {P : Item W → Prop} (h : c.Added j insertion c') (hc : c.All P) (hj : P j) :
    c'.All P := by
  intro place i hi
  rcases h.eq_or_eq hi with hi | rfl
  · exact hc hi
  · exact hj

/-- An item keeps its place unless the added one is put there, at the position that the insertion
tells. -/
theorem kept_or_replaced (h : c.Added j insertion c') {place : Nat} {i : Item W}
    (hi : c.items[place]? = some i) :
    c'.items[place]? = some i ∨
      c'.items[place]? = some j ∧ i.edge = j.edge ∧ i.weight < j.weight ∧
        ∃ position s, insertion = .improved position ∧ c.states[j.stop]? = some s ∧
          s[position]? = some place := by
  cases h with
  | new _ =>
    have hlt := lt_size_of_getElem? hi
    rw [getElem?_items_push, if_neg (by omega)]
    exact .inl hi
  | improved hs hplace hold hedge hlt =>
    rw [getElem?_items_replace hold]
    split
    · rename_i heq
      subst heq
      obtain rfl := Option.some.inj (hold.symm.trans hi)
      exact .inr ⟨rfl, hedge, hlt, _, _, rfl, hs, hplace⟩
    · exact .inl hi
  | kept _ _ _ => exact .inl hi

/-- The added item or one that is no lighter stands in the chart. -/
theorem exists_item (h : c.Added j insertion c') :
    ∃ (place : Nat) (i : Item W), c'.items[place]? = some i ∧ i.edge = j.edge ∧
      (i = j ∨ ¬i.weight < j.weight) := by
  cases h with
  | new _ => exact ⟨c.items.size, j, by rw [getElem?_items_push, if_pos rfl], rfl, .inl rfl⟩
  | @improved _ place _ _ _ _ hold _ _ =>
    exact ⟨place, j, by rw [getElem?_items_replace hold, if_pos rfl], rfl, .inl rfl⟩
  | kept hi hedge hlt => exact ⟨_, _, hi, hedge, .inr hlt⟩

/-- Only the state in which the added item stops grows, by one place at most and only if nothing
was improved. -/
theorem getElem?_states (h : c.Added j insertion c') {k : Nat} {s : Array Nat}
    (hs : c.states[k]? = some s) : ∃ t, c'.states[k]? = some (s ++ t) ∧
      (k ≠ j.stop → t = #[]) ∧ t.size + insertion.position?.toList.length ≤ 1 := by
  cases h with
  | new _ =>
    rw [getElem?_states_push, hs]
    by_cases hk : j.stop = k
    · exact ⟨#[c.items.size], by simp [hk], fun h => absurd hk.symm h, by
        simp [Insertion.position?]⟩
    · exact ⟨#[], by simp [hk], fun _ => rfl, by simp [Insertion.position?]⟩
  | improved _ _ _ _ _ =>
    exact ⟨#[], by simpa [replace] using hs, fun _ => rfl, by simp [Insertion.position?]⟩
  | kept _ _ _ => exact ⟨#[], by simpa using hs, fun _ => rfl, by simp [Insertion.position?]⟩

end Added

/-! ## Adding items one after the other -/

/-- What becomes of a chart when items are added one after the other, and the positions at which
items were put in the place of others. -/
inductive Adds : Chart W → List (Item W) → List Nat → Chart W → Prop where
  | nil {c : Chart W} : Adds c [] [] c
  | cons {c c' c'' : Chart W} {j : Item W} {insertion : Insertion} {js : List (Item W)}
      {improved : List Nat} :
      c.Added j insertion c' → Adds c' js improved c'' →
      Adds c (j :: js) (insertion.position?.toList ++ improved) c''

namespace Adds

variable {js : List (Item W)} {improved : List Nat}

theorem size_states (h : c.Adds js improved c') : c'.states.size = c.states.size := by
  induction h with
  | nil => rfl
  | cons hadd _ ih => exact ih.trans hadd.size_states

theorem valid (hc : c.Valid) (hjs : ∀ j ∈ js, j.stop < c.states.size)
    (h : c.Adds js improved c') : c'.Valid := by
  induction h with
  | nil => exact hc
  | cons hadd _ ih =>
    refine ih (hadd.valid hc (hjs _ List.mem_cons_self)) ?_
    intro j hj
    rw [hadd.size_states]
    exact hjs j (List.mem_cons_of_mem _ hj)

/-- What stands in the chart stood there before or was added. -/
theorem mem_or_mem (h : c.Adds js improved c') {place : Nat} {i : Item W}
    (hi : c'.items[place]? = some i) : c.items[place]? = some i ∨ i ∈ js := by
  induction h with
  | nil => exact .inl hi
  | cons hadd _ ih =>
    rcases ih hi with hi | hi
    · refine (hadd.eq_or_eq hi).imp_right ?_
      rintro rfl
      exact List.mem_cons_self
    · exact .inr (List.mem_cons_of_mem _ hi)

/-- A state keeps the places it has; new ones come behind them. -/
theorem getElem?_states (h : c.Adds js improved c') {k : Nat} {s : Array Nat}
    (hs : c.states[k]? = some s) : ∃ t, c'.states[k]? = some (s ++ t) ∧
      ((∀ j ∈ js, j.stop ≠ k) → t = #[]) := by
  induction h generalizing s with
  | nil => exact ⟨#[], by simpa using hs, fun _ => rfl⟩
  | cons hadd _ ih =>
    obtain ⟨t, ht, hempty, -⟩ := hadd.getElem?_states hs
    obtain ⟨u, hu, hempty'⟩ := ih ht
    refine ⟨t ++ u, by rw [hu, Array.append_assoc], fun h => ?_⟩
    rw [hempty (h _ List.mem_cons_self).symm,
      hempty' fun j hj => h j (List.mem_cons_of_mem _ hj), Array.append_empty]

/-- At a place of the chart an item with the same edge stays: the same one, or an added one that
was put there at an improved position. -/
theorem exists_same_edge (h : c.Adds js improved c') {place : Nat} {i : Item W}
    (hi : c.items[place]? = some i) : ∃ i', c'.items[place]? = some i' ∧ i'.edge = i.edge ∧
      (i' = i ∨ i' ∈ js ∧ ∃ position ∈ improved, ∃ s, c'.states[i.stop]? = some s ∧
        s[position]? = some place) := by
  induction h generalizing i with
  | nil => exact ⟨i, hi, rfl, .inl rfl⟩
  | @cons c c' c'' j insertion js improved hadd hadds ih =>
    rcases hadd.kept_or_replaced hi with hi | ⟨hj, hedge, -, position, s, rfl, hs, hplace⟩
    · obtain ⟨i', hi', hedge, hor⟩ := ih hi
      refine ⟨i', hi', hedge, hor.imp_right ?_⟩
      rintro ⟨hmem, position, hposition, hs⟩
      exact ⟨List.mem_cons_of_mem _ hmem, position, List.mem_append_right _ hposition, hs⟩
    · obtain ⟨i', hi', hedge', hor⟩ := ih hj
      have hstop : j.stop = i.stop := congrArg Edge.stop hedge.symm
      have hmem : i' ∈ j :: js := by
        rcases hor with rfl | ⟨hmem, -⟩
        · exact List.mem_cons_self
        · exact List.mem_cons_of_mem _ hmem
      refine ⟨i', hi', hedge'.trans hedge.symm, .inr ⟨hmem, position, by
        simp [Insertion.position?], ?_⟩⟩
      obtain ⟨t, ht, -, -⟩ := hadd.getElem?_states hs
      obtain ⟨u, hu, -⟩ := hadds.getElem?_states ht
      refine ⟨_, hstop ▸ hu, ?_⟩
      have hlt : position < s.size := (Array.getElem?_eq_some_iff.1 hplace).1
      rw [Array.append_assoc, Array.getElem?_append_left hlt]
      exact hplace

/-- Items change, the edges at their places do not. -/
theorem edge?_eq (h : c.Adds js improved c') {place : Nat} {i : Item W}
    (hi : c.items[place]? = some i) : c'.edge? place = c.edge? place := by
  obtain ⟨i', hi', hedge, -⟩ := h.exists_same_edge hi
  rw [edge?_of_item hi, edge?_of_item hi', hedge]

/-- Adding to other states leaves the items of a state alone. -/
theorem getElem?_items {k place : Nat} {i : Item W} (h : c.Adds js improved c')
    (hjs : ∀ j ∈ js, j.stop ≠ k) (hi : c.items[place]? = some i) (hk : i.stop = k) :
    c'.items[place]? = some i := by
  obtain ⟨i', hi', hedge, rfl | ⟨hmem, -⟩⟩ := h.exists_same_edge hi
  · exact hi'
  · exact absurd ((congrArg Edge.stop hedge).trans hk) (hjs i' hmem)

theorem all {P : Item W → Prop} (h : c.Adds js improved c') (hc : c.All P)
    (hjs : ∀ j ∈ js, P j) : c'.All P := by
  intro place i hi
  rcases h.mem_or_mem hi with hi | hi
  · exact hc hi
  · exact hjs i hi

theorem append {c'' : Chart W} {js' : List (Item W)} {improved' : List Nat}
    (h : c.Adds js improved c') (h' : c'.Adds js' improved' c'') :
    c.Adds (js ++ js') (improved ++ improved') c'' := by
  induction h with
  | nil => exact h'
  | cons hadd _ ih =>
    rw [List.cons_append, List.append_assoc]
    exact .cons hadd (ih h')

end Adds

end Add

end Chart

end TabularParsing.Earley
