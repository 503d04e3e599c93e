import TabularParsing.Proofs.Earley.Checked
import TabularParsing.Proofs.Earley.TreeEnds

/-!
# Nothing fails in a parse

Whatever the grammar and its weights, a parse meets no missing place, position or state, moves no
dot past its end and completes no item that still awaits something. Between turns every item stands
in the state in which it stops, completed items cover words, and the items below an item are
completed. What is completed began in an earlier state, which is finished: it does not change any
more.

## Main definitions

* `Chart.Orderly`: what holds of every chart of a run.
* `Chart.KeepsState`: a state that does not change.
* `Unfailing`: what is true of all runs on a sentence.

## Main statement

* `run_unfailing`
-/
namespace TabularParsing.Earley

variable {W : Type}

theorem Item.isComplete_iff {i : Item W} : i.isComplete = true ↔ i.edge.next? = none := by
  rw [Item.isComplete, Bool.not_eq_true', DottedRule.isActive_eq_false_iff]
  rfl

namespace Chart

/-- The children of an item are completed items of the arena. -/
def HoldsChildren (c : Chart W) (i : Item W) : Prop :=
  ∀ q ∈ i.children, ∃ child, c.items[q]? = some child ∧ child.isComplete = true

/-- What holds of every chart of a run. -/
structure Orderly (c : Chart W) : Prop where
  /-- What stands in a state stops there and begins no later. -/
  of_state {k place : Nat} {s : Array Nat} : c.states[k]? = some s → place ∈ s →
    ∃ i, c.items[place]? = some i ∧ i.stop = k ∧ i.origin ≤ k
  /-- Every item of the arena stands in a state. -/
  mem_state {place : Nat} {i : Item W} : c.items[place]? = some i →
    ∃ s, c.states[i.stop]? = some s ∧ place ∈ s
  dot_le : c.All fun i => i.dotted.dot ≤ i.dotted.rule.productions.length
  origin_lt : c.All fun i => i.isComplete = true → i.origin < i.stop
  children : c.All c.HoldsChildren

/-- A state and its items are in the second chart as they are in the first. -/
structure KeepsState (c c' : Chart W) (k : Nat) : Prop where
  state {s : Array Nat} : c.states[k]? = some s → c'.states[k]? = some s
  item {place : Nat} {i : Item W} : c.items[place]? = some i → i.stop = k →
    c'.items[place]? = some i

variable [LT W] {c c' : Chart W} {i : Item W} {js : List (Item W)} {improved : List Nat}

theorem Adds.keepsState {k : Nat} (hadds : c.Adds js improved c') (hjs : ∀ j ∈ js, j.stop ≠ k) :
    c.KeepsState c' k where
  state hs := by
    obtain ⟨t, ht, hnil⟩ := hadds.getElem?_states hs
    rwa [hnil hjs, Array.append_empty] at ht
  item hi hstop := hadds.getElem?_items hjs hi hstop

/-- An item that takes the place of a completed one is completed. -/
theorem HoldsChildren.adds (h : c.HoldsChildren i) (hadds : c.Adds js improved c') :
    c'.HoldsChildren i := by
  intro q hq
  obtain ⟨child, hchild, hcomplete⟩ := h q hq
  obtain ⟨child', hchild', hedge, -⟩ := hadds.exists_same_edge hchild
  refine ⟨child', hchild', ?_⟩
  rwa [Item.isComplete_iff, hedge, ← Item.isComplete_iff]

end Chart

section Reachable

variable [Mul W] {g : WeightedGrammar W} {tokens : List String} {c : Chart W} {place : Nat}
variable {i j : Item W}

/-- Only what is completed is put below another item. -/
theorem Infers.holdsChildren (hc : c.All c.HoldsChildren) (hi : c.items[place]? = some i)
    (h : Infers g tokens c place i j) : c.HoldsChildren j := by
  cases h with
  | predicted => exact fun q hq => absurd hq List.not_mem_nil
  | listed => exact fun q hq => absurd hq List.not_mem_nil
  | literal => exact fun q hq => hc hi q hq
  | @completed waitingPlace waiting p hnext _ hw =>
    intro q hq
    rcases List.mem_append.1 hq with hq | hq
    · exact hc hw q hq
    · obtain rfl := List.mem_singleton.1 hq
      exact ⟨i, hi, Item.isComplete_iff.2 hnext⟩

variable [One W] [LT W]

theorem Reachable.holdsChildren (h : Reachable g tokens c) : c.All c.HoldsChildren := by
  induction h with
  | initial =>
    intro place i hi q hq
    rw [(getElem?_items_initialChart.1 hi).2] at hq
    exact absurd hq List.not_mem_nil
  | turn _ hi hadds hjs ih =>
    intro place x hx
    rcases hadds.mem_or_mem hx with hx | hx
    · exact (ih hx).adds hadds
    · exact (((hjs x).1 hx).holdsChildren ih hi).adds hadds

theorem Reachable.orderly (h : Reachable g tokens c) : c.Orderly := by
  constructor
  case of_state =>
    intro k place s hs hplace
    obtain ⟨i, hi, rfl⟩ := h.exists_item hs hplace
    exact ⟨i, hi, rfl, (h.proper hi).origin_le⟩
  case mem_state =>
    intro place i hi
    have hs := Array.getElem?_eq_getElem (h.valid.stop_lt hi)
    exact ⟨_, hs, (h.valid.mem_state_iff hs).2 ⟨i, hi, rfl⟩⟩
  case dot_le => exact fun place i hi => (h.proper hi).dot_le
  case origin_lt =>
    intro place i hi hcomplete
    exact (h.proper hi).lt_of_next? (Item.isComplete_iff.1 hcomplete)
  case children => exact h.holdsChildren

theorem Reachable.closed (h : Reachable g tokens c) : c.Closed where
  dot_le := h.orderly.dot_le
  exists_child := by
    intro place i hi q hq
    obtain ⟨child, hchild, -⟩ := h.holdsChildren hi q hq
    exact ⟨child, hchild⟩

/-- The tree of a goal item can be read, whatever it weighs. -/
theorem Reachable.exists_tree? {p : Parse W} (h : Reachable g tokens p.chart) :
    ∃ t, p.tree? = .ok t := by
  unfold Parse.tree?
  split
  · rename_i place hplace
    obtain ⟨goal, hgoal, hchild⟩ := Option.bind_eq_some_iff.1 hplace
    obtain ⟨q, -, hq⟩ := Option.bind_eq_some_iff.1 hgoal
    obtain ⟨child, hitem⟩ := h.closed.exists_child hq place (List.mem_of_head? hchild)
    obtain ⟨t, ht⟩ := h.closed.exists_tree p.grammar hitem
    exact ⟨some t, by rw [ht]; rfl⟩
  · exact ⟨none, rfl⟩

end Reachable

variable [One W] [Mul W] [LT W] [DecidableLT W] {g : WeightedGrammar W} {tokens : List String}
variable {k n : Nat} {σ τ : Stage W}

/-- A turn at a state adds to it and to the next one, so states before it stay as they are. -/
theorem Turns.finished (h : Turns g tokens k n σ τ) (hσ : σ.Swept g tokens k) {l : Nat}
    (hl : l < k) :
    σ.chart.KeepsState τ.chart l := by
  induction h with
  | none => exact ⟨id, fun hi _ => hi⟩
  | next hturn _ ih =>
    have hrest := ih (hturn.swept hσ)
    obtain ⟨s, place, a', i, js, improved, hs, hnext, -, hi, hadds, hjs, -⟩ := hturn.exists_adds hσ
    obtain ⟨⟨position, -, hplace⟩, -⟩ := (hσ.agenda hs).next hnext
    obtain ⟨i', hi', hstop⟩ := hσ.reachable.exists_item hs (Array.mem_of_getElem? hplace)
    obtain rfl := Option.some.inj (hi.symm.trans hi')
    have hturn : Chart.KeepsState _ _ l := hadds.keepsState fun j hj => by
      have hle := ((hjs j).1 hj).stop_le
      omega
    exact ⟨fun hs => hrest.state (hturn.state hs),
      fun hx hxstop => hrest.item (hturn.item hx hxstop) hxstop⟩

/-- What is true of all runs on a sentence. -/
structure Unfailing (g : WeightedGrammar W) (tokens : List String) : Prop where
  /-- No check fails, however many turns a run may take and whether it ends or not. -/
  checks (limit : Nat) : Checked.fillChart limit g tokens = lift (fillChart limit g tokens)
  eq_outOfSteps {limit : Nat} {f : Fault} : fillChart limit g tokens = .error f → f = .outOfSteps
  /-- All is in order before the first turn at a state and after every turn. -/
  orderly {k n : Nat} {c : Chart W} {τ : Stage W} : Filled g tokens k c →
    Turns g tokens k n (.start c) τ → τ.chart.Orderly
  /-- The states before the one that is worked on do not change, nor do their items. -/
  finished {k l n : Nat} {c : Chart W} {τ : Stage W} : Filled g tokens k c →
    Turns g tokens k n (.start c) τ → l < k → c.KeepsState τ.chart l
  /-- When a run has ended, its goal items and its tree are read off without a failing check. -/
  answers {limit : Nat} {p : Parse W} : Parse.ofTokens limit g tokens = .ok p →
    p.chart.Orderly ∧ Checked.goals p = .ok p.goals ∧
      ∃ t, p.tree? = .ok t ∧ Checked.tree? p = .ok t

/-- Any grammar with any weights may be parsed, with any start symbol and any words. -/
theorem run_unfailing (g : WeightedGrammar W) (tokens : List String) : Unfailing g tokens := by
  constructor
  case checks => exact fun limit => Checked.fillChart_eq limit g tokens
  case eq_outOfSteps =>
    intro limit f h
    rcases fillChart_saturated limit ranking_trivial (WeightedGrammar.weightsIn_trivial g) with
      hcut | ⟨c, hok, -⟩
    · exact Except.error.inj (h.symm.trans hcut)
    · rw [hok] at h
      cases h
  case orderly =>
    intro k n c τ hfilled hturns
    exact (hturns.swept (Stage.swept_start (reachable_of_filled hfilled))).reachable.orderly
  case finished =>
    intro k l n c τ hfilled hturns hl
    exact hturns.finished (Stage.swept_start (reachable_of_filled hfilled)) hl
  case answers =>
    intro limit p hp
    obtain ⟨c, rfl, hreach, -⟩ :=
      Parse.exists_saturated ranking_trivial (WeightedGrammar.weightsIn_trivial g) hp
    have hsize : tokens.length < c.states.size := by
      rw [hreach.size_states]
      omega
    obtain ⟨t, ht⟩ := Reachable.exists_tree? (p := ⟨g, tokens.length, c⟩) hreach
    refine ⟨hreach.orderly, Checked.goals_eq hreach.valid hsize, t, ht, ?_⟩
    rw [Checked.tree?_eq hreach.valid hsize, ht]
    rfl

/-- With every check made, a grammar of loops is parsed to the end. -/
example : (Checked.fillChart 20 loops ["a", "a"]).isOk = true := by decide +kernel

end TabularParsing.Earley
