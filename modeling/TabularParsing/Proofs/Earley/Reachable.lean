import TabularParsing.Proofs.Earley.Inference

/-!
# The charts that turns lead to

Whatever holds of the goal item and passes on to what follows holds of every item of a chart that
turns lead to. In particular such a chart is valid, so that turns and agendas never meet a place
that is missing.

## Main definition

* `Reachable`: the charts that turns lead to.

## Main statements

* `Reachable.all`: what holds of every item.
* `Reachable.process_ok`: the next turn.
-/
namespace TabularParsing.Earley

variable {W : Type} [One W] [Mul W] [LT W]
variable {g : WeightedGrammar W} {tokens : List String} {c : Chart W}

/-- The goal rule, waiting for the start symbol. -/
def Item.goal (g : WeightedGrammar W) : Item W :=
  ⟨.ofRule ⟨goalSymbol, [.ofSymbol g.start], 1⟩, 0, 0, .initial, [], 1, true⟩

omit [Mul W] [LT W] in
theorem getElem?_items_initialChart {place : Nat} {i : Item W} :
    (initialChart g tokens).items[place]? = some i ↔ place = 0 ∧ i = .goal g := by
  rw [initialChart, Chart.getElem?_items_push]
  by_cases hplace : place = 0 <;> simp [Chart.empty, Item.goal, hplace, eq_comm]

omit [Mul W] [LT W] in
theorem Item.proper_goal (g : WeightedGrammar W) : (goal g).Proper :=
  ⟨List.cons_ne_nil _ _, Nat.zero_le _, Nat.le_refl _, fun h => absurd h (Nat.lt_irrefl 0)⟩

/-- The charts that turns lead to from the goal item. -/
inductive Reachable (g : WeightedGrammar W) (tokens : List String) : Chart W → Prop where
  | initial : Reachable g tokens (initialChart g tokens)
  | turn {c c' : Chart W} {place : Nat} {i : Item W} {js : List (Item W)}
      {improved : List Nat} :
      Reachable g tokens c → c.items[place]? = some i → c.Adds js improved c' →
      (∀ j, j ∈ js ↔ Infers g tokens c place i j) → Reachable g tokens c'

namespace Reachable

/-- Every item of a reachable chart satisfies what the goal item does, if that passes on. -/
theorem all {P : Item W → Prop} (h : Reachable g tokens c) (hgoal : P (.goal g))
    (hinfers : ∀ {c : Chart W} {place : Nat} {i j : Item W}, c.All P → P i →
      Infers g tokens c place i j → P j) : c.All P := by
  induction h with
  | initial =>
    intro place i hi
    rw [(getElem?_items_initialChart.1 hi).2]
    exact hgoal
  | turn _ hi hadds hjs ih => exact hadds.all ih fun j hj => hinfers ih (ih hi) ((hjs j).1 hj)

theorem proper (h : Reachable g tokens c) : c.All Item.Proper :=
  h.all (Item.proper_goal g) Infers.proper

theorem size_states (h : Reachable g tokens c) : c.states.size = tokens.length + 1 := by
  induction h with
  | initial => simp [initialChart, Chart.push, Chart.empty]
  | turn _ _ hadds _ ih => exact hadds.size_states.trans ih

theorem valid (h : Reachable g tokens c) : c.Valid := by
  induction h with
  | initial =>
    refine Chart.valid_push (j := .goal g) (Chart.valid_empty _) ?_ fun h => ?_
    · simp [Item.goal, Chart.empty]
    · simp [Chart.empty] at h
  | turn hreach hi hadds hjs ih =>
    exact hadds.valid ih fun j hj => ((hjs j).1 hj).stop_lt hreach.size_states (ih.stop_lt hi)

theorem stop_lt (h : Reachable g tokens c) {place : Nat} {i j : Item W}
    (hi : c.items[place]? = some i) (hj : Infers g tokens c place i j) :
    j.stop < c.states.size :=
  hj.stop_lt h.size_states (h.valid.stop_lt hi)

theorem exists_item (h : Reachable g tokens c) {k place : Nat} {s : Array Nat}
    (hs : c.states[k]? = some s) (hplace : place ∈ s) :
    ∃ i, c.items[place]? = some i ∧ i.stop = k :=
  (h.valid.mem_state_iff hs).1 hplace

/-- A turn is taken without fault, and leads to a reachable chart. -/
theorem process_ok [DecidableLT W] (h : Reachable g tokens c) {place : Nat} {i : Item W}
    (hi : c.items[place]? = some i) : ∃ js improved c',
      process g tokens i.stop place c = .ok (c', if i.isComplete then improved else []) ∧
      c.Adds js improved c' ∧ (∀ j, j ∈ js ↔ Infers g tokens c place i j) ∧
      Reachable g tokens c' := by
  obtain ⟨js, improved, c', hok, hadds, hjs⟩ :=
    Earley.process_ok h.valid h.size_states hi (h.proper hi)
  exact ⟨js, improved, c', hok, hadds, hjs, h.turn hi hadds hjs⟩

end Reachable

/-! ## Agendas -/

namespace Agenda

variable {a a' : Agenda} {s : Array Nat} {place : Nat}

theorem next?_eq_none_iff : a.next? s = none ↔ s.size ≤ a.cursor ∧ a.requeued = [] := by
  unfold next?
  split
  · rename_i hplace
    have := (Array.getElem?_eq_some_iff.1 hplace).1
    simp; omega
  · rename_i hend
    have := Array.getElem?_eq_none_iff.1 hend
    cases a.requeued <;> simp [this]

/-- The next place is the one at the cursor or, if there is none, the first that was requeued. -/
theorem next?_eq_some_iff : a.next? s = some (place, a') ↔
    s[a.cursor]? = some place ∧ a' = ⟨a.cursor + 1, a.requeued⟩ ∨
      s[a.cursor]? = none ∧ ∃ rest, a.requeued = place :: rest ∧ a' = ⟨a.cursor, rest⟩ := by
  unfold next?
  split
  · rename_i hplace
    simp [hplace, eq_comm]
  · rename_i hend
    cases a.requeued <;> simp [hend, eq_comm]

theorem mem_requeue_iff {improved : List Nat} : place ∈ (a.requeue s improved).requeued ↔
    place ∈ a.requeued ∨
      ∃ position ∈ improved, position < a.cursor ∧ s[position]? = some place := by
  unfold requeue
  generalize a.requeued = places
  induction improved generalizing places with
  | nil => simp
  | cons position improved ih =>
    rw [List.foldl_cons, ih]
    split
    · simp only [List.mem_append, Option.mem_toList, List.mem_cons, exists_eq_or_imp]
      tauto
    · simp only [List.mem_cons, exists_eq_or_imp]
      tauto

theorem length_requeue_le (improved : List Nat) :
    (a.requeue s improved).requeued.length ≤ a.requeued.length + improved.length := by
  unfold requeue
  generalize a.requeued = places
  induction improved generalizing places with
  | nil => simp
  | cons position improved ih =>
    have hone : (if position < a.cursor then (s[position]?).toList ++ places else places).length ≤
        places.length + 1 := by
      split
      · cases s[position]? <;> simp
      · exact Nat.le_succ _
    rw [List.foldl_cons, List.length_cons]
    have hrest := ih (if position < a.cursor then (s[position]?).toList ++ places else places)
    omega

end Agenda

end TabularParsing.Earley
