import TabularParsing.Proofs.Double.Sums
import TabularParsing.Proofs.Earley.Acceptance

/-!
# States are sets

Items are added to states in any order and number, and a state need not be the one in which an item
stops. Every place of the arena stands at one position of one state, and no two items of a state
merge. What stands at a position stays there but for its weight and how it was found, and its weight
only rises. So the goal items of a finished parse, which all merge, are one at most.

## Main definitions

* `Chart.at?`, `Chart.itemAt?`: what stands at a position of a state.
* `Chart.Partitioned`: every place stands at one position, and the items of a state are apart.
* `Chart.AddedTo`: what adding an item to a state does.
* `Chart.Grows`: what an earlier chart has in common with a later one.

## Main statements

* `Chart.AddedTo.partitioned`, `Chart.AddedTo.grows`: what one insertion keeps.
* `Chart.addAll_ok`: what a run of insertions keeps.
* `states_are_sets`
-/
namespace TabularParsing.Earley

variable {W : Type}

theorem Item.merges_comm {i j : Item W} : i.merges j = true ↔ j.merges i = true := by
  rw [merges_iff, merges_iff, eq_comm]

theorem Item.merges_refl (i : Item W) : i.merges i = true := merges_iff.2 rfl

theorem Item.merges_trans {i j l : Item W} (h : i.merges j = true) (h' : j.merges l = true) :
    i.merges l = true :=
  merges_iff.2 ((merges_iff.1 h).trans (merges_iff.1 h'))

namespace Chart

/-- The place at a position of a state. -/
def at? (c : Chart W) (k position : Nat) : Option Nat := c.states[k]? >>= fun s => s[position]?

/-- The item at a position of a state. -/
def itemAt? (c : Chart W) (k position : Nat) : Option (Item W) :=
  c.at? k position >>= fun place => c.items[place]?

variable {c c' c'' : Chart W} {k l position place : Nat} {i j : Item W}

theorem at?_eq_some_iff :
    c.at? k position = some place ↔ ∃ s, c.states[k]? = some s ∧ s[position]? = some place :=
  Option.bind_eq_some_iff

theorem itemAt?_eq_some_iff :
    c.itemAt? k position = some i ↔
      ∃ place, c.at? k position = some place ∧ c.items[place]? = some i :=
  Option.bind_eq_some_iff

theorem at?_of_state {s : Array Nat} (hs : c.states[k]? = some s) :
    c.at? k position = s[position]? := by
  rw [at?, hs]
  rfl

/-- A new place stands behind the others of its state. -/
theorem at?_push {s : Array Nat} (hs : c.states[k]? = some s) : (c.push k i).at? l position =
    if l = k ∧ position = s.size then some c.items.size else c.at? l position := by
  by_cases hl : l = k
  · subst hl
    have hpushed : (c.push l i).states[l]? = some (s.push c.items.size) := by
      rw [getElem?_states_push, if_pos rfl, hs, Option.map_some]
    rw [at?_of_state hpushed, at?_of_state hs, Array.getElem?_push]
    simp
  · have hother : (c.push k i).states[l]? = c.states[l]? := by
      rw [getElem?_states_push, if_neg (Ne.symm hl)]
    simp only [at?, hother, hl, false_and, if_false]

/-- Every place stands at one position of one state, and no two items of a state merge. -/
structure Partitioned (c : Chart W) : Prop where
  lt_size_iff {place : Nat} : place < c.items.size ↔ ∃ k position, c.at? k position = some place
  once {k k' position position' place : Nat} : c.at? k position = some place →
    c.at? k' position' = some place → k = k' ∧ position = position'
  size_eq : c.items.size = (c.states.toList.map Array.size).sum
  apart {k position position' : Nat} {i j : Item W} : c.itemAt? k position = some i →
    c.itemAt? k position' = some j → i.merges j = true → position = position'

theorem partitioned_empty (n : Nat) : (empty n : Chart W).Partitioned := by
  have hnone (k position : Nat) : (empty n : Chart W).at? k position = none := by
    simp only [at?, empty, Array.getElem?_replicate]
    split <;> rfl
  constructor
  case lt_size_iff =>
    simp only [hnone, reduceCtorEq, exists_const, iff_false]
    exact Nat.not_lt_zero _
  case once => simp [hnone]
  case size_eq => simp [empty]
  case apart => simp [itemAt?, hnone]

theorem Partitioned.lt_size (hc : c.Partitioned) (h : c.at? k position = some place) :
    place < c.items.size :=
  hc.lt_size_iff.2 ⟨k, position, h⟩

/-- The sizes add up to one more when a state grows by one. -/
theorem sum_size_modify_push {ss : List (Array Nat)} (hk : k < ss.length) :
    ((ss.modify k fun s => s.push place).map Array.size).sum = (ss.map Array.size).sum + 1 := by
  induction ss generalizing k with
  | nil => exact absurd hk (Nat.not_lt_zero k)
  | cons s ss ih =>
    cases k with
    | zero =>
      rw [List.modify_zero_cons, List.map_cons, List.map_cons, List.sum_cons, List.sum_cons,
        Array.size_push]
      omega
    | succ k =>
      rw [List.modify_succ_cons, List.map_cons, List.map_cons, List.sum_cons, List.sum_cons,
        ih (Nat.lt_of_succ_lt_succ hk)]
      omega

/-- A position of the chart after a push is the one of the new item or one of the chart before. -/
theorem Partitioned.itemAt?_push (hc : c.Partitioned) (hk : k < c.states.size)
    (hj : (c.push k i).itemAt? l position = some j) :
    l = k ∧ position = c.states[k].size ∧ j = i ∨ c.itemAt? l position = some j := by
  obtain ⟨place, hplace, hj⟩ := itemAt?_eq_some_iff.1 hj
  rw [at?_push (Array.getElem?_eq_getElem hk)] at hplace
  rw [getElem?_items_push] at hj
  split at hplace
  · rename_i hlast
    rw [if_pos (Option.some.inj hplace).symm] at hj
    exact .inl ⟨hlast.1, hlast.2, (Option.some.inj hj).symm⟩
  · rw [if_neg (Nat.ne_of_lt (hc.lt_size hplace))] at hj
    exact .inr (itemAt?_eq_some_iff.2 ⟨place, hplace, hj⟩)

/-- A new item that merges with none of its state keeps the items apart. -/
theorem Partitioned.push (hc : c.Partitioned) (hk : k < c.states.size)
    (hnew : ∀ {position : Nat} {j : Item W}, c.itemAt? k position = some j →
      ¬j.merges i = true) : (c.push k i).Partitioned := by
  have hs := Array.getElem?_eq_getElem hk
  have hat (l position : Nat) := @at?_push W c k l position i _ hs
  have hsize : (c.push k i).items.size = c.items.size + 1 := by simp [Chart.push]
  constructor
  case lt_size_iff =>
    intro place
    rw [hsize, Nat.lt_succ_iff_lt_or_eq, hc.lt_size_iff]
    constructor
    · rintro (⟨l, position, h⟩ | rfl)
      · refine ⟨l, position, ?_⟩
        rw [hat, if_neg, h]
        rintro ⟨rfl, rfl⟩
        rw [at?_of_state hs] at h
        simp at h
      · exact ⟨k, c.states[k].size, by rw [hat, if_pos ⟨rfl, rfl⟩]⟩
    · rintro ⟨l, position, h⟩
      rw [hat] at h
      split at h
      · exact .inr (Option.some.inj h).symm
      · exact .inl ⟨l, position, h⟩
  case once =>
    intro l l' position position' place h h'
    rw [hat] at h h'
    split at h <;> split at h'
    · grind
    · exact absurd (Option.some.inj h) (Nat.ne_of_gt (hc.lt_size h'))
    · exact absurd (Option.some.inj h') (Nat.ne_of_gt (hc.lt_size h))
    · exact hc.once h h'
  case size_eq =>
    rw [hsize, Chart.push, Array.toList_modify, sum_size_modify_push (by simpa using hk),
      hc.size_eq]
  case apart =>
    intro l position position' j j' hj hj' hmerges
    rcases hc.itemAt?_push hk hj with ⟨rfl, rfl, rfl⟩ | hold <;>
      rcases hc.itemAt?_push hk hj' with ⟨hl, rfl, rfl⟩ | hold'
    · rfl
    · exact absurd (Item.merges_comm.1 hmerges) (hnew hold')
    · exact absurd hmerges (hnew (hl ▸ hold))
    · exact hc.apart hold hold' hmerges

/-- An item that merges with the one at its place keeps the items apart. -/
theorem Partitioned.replace (hc : c.Partitioned) (hj : c.items[place]? = some j)
    (hmerges : j.merges i = true) : (c.replace place i).Partitioned := by
  have hitem {l position : Nat} {x : Item W}
      (hx : (c.replace place i).itemAt? l position = some x) :
      ∃ y, c.itemAt? l position = some y ∧ y.merges x = true := by
    obtain ⟨q, hq, hx⟩ := itemAt?_eq_some_iff.1 hx
    rw [getElem?_items_replace hj] at hx
    split at hx
    · rename_i heq
      obtain rfl := Option.some.inj hx
      exact ⟨j, itemAt?_eq_some_iff.2 ⟨q, hq, heq ▸ hj⟩, hmerges⟩
    · exact ⟨x, itemAt?_eq_some_iff.2 ⟨q, hq, hx⟩, x.merges_refl⟩
  constructor
  case lt_size_iff =>
    intro q
    rw [Chart.replace, Array.size_setIfInBounds]
    exact hc.lt_size_iff
  case once => exact hc.once
  case size_eq => simpa [Chart.replace] using hc.size_eq
  case apart =>
    intro l position position' x x' hx hx' h
    obtain ⟨y, hy, hyx⟩ := hitem hx
    obtain ⟨y', hy', hyx'⟩ := hitem hx'
    exact hc.apart hy hy' (Item.merges_trans (Item.merges_trans hyx h) (Item.merges_comm.1 hyx'))

/-- What an earlier chart has in common with a later one: what stands at a position stays there,
and its weight only rises. -/
structure Grows [LT W] (c c' : Chart W) : Prop where
  size_states : c'.states.size = c.states.size
  at?_eq {k position place : Nat} : c.at? k position = some place →
    c'.at? k position = some place
  item {place : Nat} {i : Item W} : c.items[place]? = some i →
    ∃ i', c'.items[place]? = some i' ∧ i'.merges i = true ∧ (i' = i ∨ i.weight < i'.weight)

section Grows

variable [LT W]

theorem Grows.refl (c : Chart W) : c.Grows c where
  size_states := rfl
  at?_eq h := h
  item {_ i} hi := ⟨i, hi, i.merges_refl, .inl rfl⟩

theorem Grows.trans (hlt : ∀ {x y z : W}, x < y → y < z → x < z) (h : c.Grows c')
    (h' : c'.Grows c'') : c.Grows c'' where
  size_states := h'.size_states.trans h.size_states
  at?_eq hat := h'.at?_eq (h.at?_eq hat)
  item {place i} hi := by
    obtain ⟨i', hi', hmerges, hweight⟩ := h.item hi
    obtain ⟨i'', hi'', hmerges', hweight'⟩ := h'.item hi'
    refine ⟨i'', hi'', Item.merges_trans hmerges' hmerges, ?_⟩
    rcases hweight with rfl | hrise <;> rcases hweight' with rfl | hrise'
    · exact .inl rfl
    · exact .inr hrise'
    · exact .inr hrise
    · exact .inr (hlt hrise hrise')

end Grows

/-! ## One insertion -/

/-- What becomes of a chart when an item is added to a state: it comes behind the others if none of
them merges with it, takes the place of the one that does and is lighter, or is dropped. -/
inductive AddedTo [LT W] (c : Chart W) (k : Nat) (i : Item W) : Insertion → Chart W → Prop where
  | new : (∀ {position : Nat} {j : Item W}, c.itemAt? k position = some j → ¬j.merges i = true) →
      AddedTo c k i .new (c.push k i)
  | improved {position place : Nat} {j : Item W} : c.at? k position = some place →
      c.items[place]? = some j → j.merges i = true → j.weight < i.weight →
      AddedTo c k i (.improved position) (c.replace place i)
  | kept {position : Nat} {j : Item W} : c.itemAt? k position = some j → j.merges i = true →
      ¬j.weight < i.weight → AddedTo c k i .kept c

section Insertion

variable [LT W] {insertion : Insertion}

theorem add_addedTo [DecidableLT W] (hk : k < c.states.size) (i : Item W) :
    ∃ insertion c', c.add k i = .ok (insertion, c') ∧ c.AddedTo k i insertion c' := by
  have hs := Array.getElem?_eq_getElem hk
  have hstate := state_eq_ok_iff.2 hs
  cases hfind : c.find? c.states[k] i with
  | none =>
    refine ⟨.new, c.push k i, ?_, .new fun {position j} hj hmerges => ?_⟩
    · simp [add, hstate, hfind, bind, Except.bind, pure, Except.pure]
    · obtain ⟨place, hat, hplace⟩ := itemAt?_eq_some_iff.1 hj
      rw [at?_of_state hs] at hat
      have hfalse := Array.findIdx?_eq_none_iff.1 hfind place (Array.mem_of_getElem? hat)
      rw [hplace, Option.any_some, hmerges] at hfalse
      cases hfalse
  | some position =>
    obtain ⟨place, j, hplace, hj, hedge⟩ := exists_of_find? hfind
    have hmerges : j.merges i = true := Item.merges_iff.2 hedge
    have hat : c.at? k position = some place := (at?_of_state hs).trans hplace
    by_cases hlt : j.weight < i.weight
    · refine ⟨.improved position, c.replace place i, ?_, .improved hat hj hmerges hlt⟩
      simp [add, hstate, hfind, hplace, item_eq_ok_iff.2 hj, hlt, bind, Except.bind, pure,
        Except.pure, replace]
    · refine ⟨.kept, c, ?_, .kept (itemAt?_eq_some_iff.2 ⟨place, hat, hj⟩) hmerges hlt⟩
      simp [add, hstate, hfind, hplace, item_eq_ok_iff.2 hj, hlt, bind, Except.bind, pure,
        Except.pure]

namespace AddedTo

theorem grows (h : c.AddedTo k i insertion c') : c.Grows c' := by
  cases h with
  | new hnew =>
    constructor
    case size_states => simp [push]
    case at?_eq =>
      intro l position place hat
      obtain ⟨s, hs, hplace⟩ := at?_eq_some_iff.1 hat
      by_cases hl : l = k
      · subst hl
        have hlt := (Array.getElem?_eq_some_iff.1 hplace).1
        rw [at?_push hs, if_neg (by omega), hat]
      · rw [at?, getElem?_states_push, if_neg (Ne.symm hl)]
        exact hat
    case item =>
      intro place j hj
      have hlt := lt_size_of_getElem? hj
      refine ⟨j, ?_, j.merges_refl, .inl rfl⟩
      rw [getElem?_items_push, if_neg (Nat.ne_of_lt hlt), hj]
  | @improved position place j hat hj hmerges hlt =>
    refine ⟨rfl, fun h => h, fun {q x} hx => ?_⟩
    rw [getElem?_items_replace hj]
    split
    · rename_i hq
      obtain rfl := Option.some.inj (hj.symm.trans (hq ▸ hx))
      exact ⟨i, rfl, Item.merges_comm.1 hmerges, .inr hlt⟩
    · exact ⟨x, hx, x.merges_refl, .inl rfl⟩
  | kept _ _ _ => exact .refl c

/-- Items merge in the later chart as they did in the earlier one, and a new item is apart from
those that stood there before. -/
theorem partitioned (hc : c.Partitioned) (hk : k < c.states.size)
    (h : c.AddedTo k i insertion c') : c'.Partitioned := by
  cases h with
  | new hnew => exact hc.push hk hnew
  | improved hat hj hmerges _ => exact hc.replace hj hmerges
  | kept _ _ _ => exact hc

theorem eq_new_iff (h : c.AddedTo k i insertion c') :
    insertion = .new ↔ ∀ position j, c.itemAt? k position = some j → ¬j.merges i = true := by
  cases h with
  | new hnew => exact iff_of_true rfl fun _ _ => hnew
  | improved hat hj hmerges _ =>
    refine iff_of_false (by simp) fun hnone => ?_
    exact hnone _ _ (itemAt?_eq_some_iff.2 ⟨_, hat, hj⟩) hmerges
  | kept hj hmerges _ => exact iff_of_false (by simp) fun hnone => hnone _ _ hj hmerges

theorem eq_improved_iff (hc : c.Partitioned) (h : c.AddedTo k i insertion c') :
    insertion = .improved position ↔
      ∃ j, c.itemAt? k position = some j ∧ j.merges i = true ∧ j.weight < i.weight := by
  have hsame {p q : Nat} {x y : Item W} (hx : c.itemAt? k p = some x) (hxi : x.merges i = true)
      (hy : c.itemAt? k q = some y) (hyi : y.merges i = true) : p = q ∧ x = y := by
    obtain rfl := hc.apart hx hy (Item.merges_trans hxi (Item.merges_comm.1 hyi))
    exact ⟨rfl, Option.some.inj (hx.symm.trans hy)⟩
  cases h with
  | new hnew =>
    refine iff_of_false (by simp) ?_
    rintro ⟨j, hj, hmerges, -⟩
    exact hnew hj hmerges
  | @improved p place j hat hj hmerges hlt =>
    have hj' : c.itemAt? k p = some j := itemAt?_eq_some_iff.2 ⟨place, hat, hj⟩
    constructor
    · intro h
      obtain rfl := Insertion.improved.inj h
      exact ⟨j, hj', hmerges, hlt⟩
    · rintro ⟨x, hx, hxi, -⟩
      rw [(hsame hj' hmerges hx hxi).1]
  | kept hj hmerges hnot =>
    refine iff_of_false (by simp) ?_
    rintro ⟨x, hx, hxi, hlt⟩
    obtain ⟨-, rfl⟩ := hsame hj hmerges hx hxi
    exact hnot hlt

theorem eq_of_kept (h : c.AddedTo k i .kept c') : c' = c := by
  cases h
  rfl

/-- Unless it is dropped the item stands in its state. -/
theorem exists_itemAt? (hk : k < c.states.size) (h : c.AddedTo k i insertion c')
    (hne : insertion ≠ .kept) : ∃ position, c'.itemAt? k position = some i := by
  cases h with
  | new _ =>
    refine ⟨c.states[k].size, itemAt?_eq_some_iff.2 ⟨c.items.size, ?_, ?_⟩⟩
    · rw [at?_push (Array.getElem?_eq_getElem hk), if_pos ⟨rfl, rfl⟩]
    · rw [getElem?_items_push, if_pos rfl]
  | @improved position place j hat hj _ _ =>
    refine ⟨position, itemAt?_eq_some_iff.2 ⟨place, hat, ?_⟩⟩
    rw [getElem?_items_replace hj, if_pos rfl]
  | kept _ _ _ => exact absurd rfl hne

end AddedTo

end Insertion

/-! ## Runs of insertions -/

section Run

variable [LT W] [DecidableLT W]

/-- Adds items to states one after the other. -/
def addAll (c : Chart W) (calls : List (Nat × Item W)) : Except Fault (Chart W) :=
  calls.foldlM (fun c call => (c.add call.1 call.2).map Prod.snd) c

theorem addAll_append (c : Chart W) (calls calls' : List (Nat × Item W)) :
    c.addAll (calls ++ calls') = c.addAll calls >>= fun c' => c'.addAll calls' :=
  List.foldlM_append

/-- Items can be added to states that exist without end, and what stands in the chart stays
there. -/
theorem addAll_ok (hlt : ∀ {x y z : W}, x < y → y < z → x < z) (hc : c.Partitioned)
    {calls : List (Nat × Item W)} (hcalls : ∀ call ∈ calls, call.1 < c.states.size) :
    ∃ c', c.addAll calls = .ok c' ∧ c'.Partitioned ∧ c.Grows c' := by
  induction calls generalizing c with
  | nil => exact ⟨c, rfl, hc, .refl c⟩
  | cons call calls ih =>
    obtain ⟨hcall, hrest⟩ := List.forall_mem_cons.1 hcalls
    obtain ⟨insertion, c₁, hadd, hadded⟩ := add_addedTo hcall call.2
    have hgrows := hadded.grows
    obtain ⟨c', hrun, hc', hgrows'⟩ := ih (hadded.partitioned hc hcall) fun call' hcall' => by
      rw [hgrows.size_states]
      exact hrest call' hcall'
    refine ⟨c', ?_, hc', hgrows.trans hlt hgrows'⟩
    rw [addAll, List.foldlM_cons, hadd]
    exact hrun

end Run

end Chart

/-! ## Goals -/

section Goals

variable [One W] [Mul W] [LT W] {g : WeightedGrammar W} {tokens : List String}

/-- Only the goal rule is for the goal. -/
theorem Reachable.goal_rule {c : Chart W} (h : Reachable g tokens c) :
    c.All fun i => i.forGoal = true →
      i.symbol = goalSymbol ∧ i.dotted.rule.productions = [.ofSymbol g.start] := by
  refine h.all (fun _ => ⟨rfl, rfl⟩) fun hc hi hinfers hgoal => ?_
  cases hinfers with
  | predicted => cases hgoal
  | listed => cases hgoal
  | literal => exact hi hgoal
  | completed _ _ hw =>
    have hwaiting := hc hw
    exact hwaiting hgoal

/-- Completed goal items that stop in the same state have one edge. -/
theorem Reachable.eq_of_isGoal {c : Chart W} (h : Reachable g tokens c) {p q : Nat}
    {i j : Item W} (hi : c.items[p]? = some i) (hj : c.items[q]? = some j)
    (hstop : i.stop = j.stop) (hgoal : Parse.isGoal i = true) (hgoal' : Parse.isGoal j = true) :
    p = q := by
  refine h.valid.apart hi hj ?_
  have hedge {place : Nat} {x : Item W} (hx : c.items[place]? = some x)
      (hgoal : Parse.isGoal x = true) : x.edge =
        ⟨goalSymbol, [.ofSymbol g.start], 1, 0, x.stop, true⟩ := by
    simp only [Parse.isGoal, Item.isComplete, Bool.and_eq_true, Bool.not_eq_true', beq_iff_eq,
      DottedRule.isActive_eq_false_iff] at hgoal
    obtain ⟨⟨hfor, hend⟩, horigin⟩ := hgoal
    obtain ⟨hsymbol, hproductions⟩ := h.goal_rule hx hfor
    have hdot : x.dotted.dot = 1 := by
      have hle := (h.proper hx).dot_le
      rw [DottedRule.next?, List.getElem?_eq_none_iff] at hend
      rw [hproductions] at hle hend
      exact Nat.le_antisymm hle hend
    simp only [Item.edge, hsymbol, hproductions, hdot, horigin, hfor]
  rw [hedge hi hgoal, hedge hj hgoal', hstop]

/-- A reachable chart has one goal at most. -/
theorem Parse.length_goals_le {c : Chart W} (h : Reachable g tokens c) :
    (⟨g, tokens.length, c⟩ : Parse W).goals.length ≤ 1 := by
  have hlt : tokens.length < c.states.size := by
    rw [h.size_states]
    exact Nat.lt_succ_self _
  have hs := Array.getElem?_eq_getElem hlt
  have hgoals : (⟨g, tokens.length, c⟩ : Parse W).goals =
      c.states[tokens.length].toList.filter fun place => c.items[place]?.any isGoal := by
    rw [goals, hs, Option.getD_some]
  have hmem {place : Nat} (hplace : place ∈ (⟨g, tokens.length, c⟩ : Parse W).goals) :
      ∃ i, c.items[place]? = some i ∧ i.stop = tokens.length ∧ isGoal i = true := by
    rw [hgoals] at hplace
    obtain ⟨hstate, hgoal⟩ := List.mem_filter.1 hplace
    obtain ⟨i, hi, hstop⟩ := h.exists_item hs (Array.mem_toList_iff.1 hstate)
    rw [hi, Option.any_some] at hgoal
    exact ⟨i, hi, hstop, hgoal⟩
  have hnodup : (⟨g, tokens.length, c⟩ : Parse W).goals.Nodup :=
    hgoals ▸ (h.valid.nodup hs).filter _
  generalize (⟨g, tokens.length, c⟩ : Parse W).goals = places at hmem hnodup
  rcases places with _ | ⟨p, _ | ⟨q, rest⟩⟩
  case nil => exact Nat.zero_le 1
  case cons.nil => exact Nat.le_refl 1
  case cons.cons =>
    obtain ⟨i, hi, hstop, hgoal⟩ := hmem List.mem_cons_self
    obtain ⟨j, hj, hstop', hgoal'⟩ := hmem (List.mem_cons_of_mem _ List.mem_cons_self)
    have heq := h.eq_of_isGoal hi hj (hstop.trans hstop'.symm) hgoal hgoal'
    exact absurd (heq ▸ List.mem_cons_self) (List.nodup_cons.1 hnodup).1

end Goals

/-- Any items may be added to any states that a chart has, with or without items for the goal and
with any weights, whether they are numbers or not. Then every place of the arena stands at one
position of one state, as many as there are positions, and no two items of a state merge. What came
to stand at a position still stands there, no lighter. The next item is new if none of its state
merges with it, improves the one that does if that is lighter, and changes nothing otherwise. So
the chart of a sentence that was parsed has one goal at most. -/
theorem states_are_sets :
    (∀ (n : Nat) (calls : List (Nat × Item Float)), (∀ call ∈ calls, call.1 < n) →
      ∃ c, (Chart.empty n).addAll calls = .ok c ∧ c.Partitioned ∧
        (∀ before after, calls = before ++ after →
          ∃ c₀, (Chart.empty n).addAll before = .ok c₀ ∧ c₀.Grows c) ∧
        ∀ k < n, ∀ i : Item Float, ∃ insertion c', c.add k i = .ok (insertion, c') ∧
          (insertion = .new ↔
            ∀ position j, c.itemAt? k position = some j → ¬j.merges i = true) ∧
          (∀ position, insertion = .improved position ↔
            ∃ j, c.itemAt? k position = some j ∧ j.merges i = true ∧ j.weight < i.weight) ∧
          (insertion = .kept → c' = c) ∧
          (insertion ≠ .kept → ∃ position, c'.itemAt? k position = some i)) ∧
    ∀ (g : WeightedGrammar Float) (tokens : List String) (limit : Nat) (p : Parse Float),
      Parse.ofTokens limit g tokens = .ok p → p.goals.length ≤ 1 := by
  refine ⟨fun n calls hcalls => ?_, fun g tokens limit p hp => ?_⟩
  · have hsize : (Chart.empty n : Chart Float).states.size = n := by simp [Chart.empty]
    obtain ⟨c, hrun, hc, hgrows⟩ :=
      Chart.addAll_ok Double.lt_of_lt_of_lt (Chart.partitioned_empty n) (hsize.symm ▸ hcalls)
    refine ⟨c, hrun, hc, fun before after hsplit => ?_, fun k hk i => ?_⟩
    · have hbefore : ∀ call ∈ before, call.1 < (Chart.empty n : Chart Float).states.size :=
        fun call hcall => hsize.symm ▸ hcalls call (hsplit ▸ List.mem_append_left after hcall)
      obtain ⟨c₀, hrun₀, hc₀, hgrows₀⟩ :=
        Chart.addAll_ok Double.lt_of_lt_of_lt (Chart.partitioned_empty n) hbefore
      have hafter : ∀ call ∈ after, call.1 < c₀.states.size := by
        intro call hcall
        rw [hgrows₀.size_states, hsize]
        exact hcalls call (hsplit ▸ List.mem_append_right before hcall)
      obtain ⟨c₁, hrun₁, -, hgrows₁⟩ := Chart.addAll_ok Double.lt_of_lt_of_lt hc₀ hafter
      rw [hsplit, Chart.addAll_append, hrun₀] at hrun
      obtain rfl := Except.ok.inj (hrun₁.symm.trans hrun)
      exact ⟨c₀, hrun₀, hgrows₁⟩
    · have hlt : k < c.states.size := by rwa [hgrows.size_states, hsize]
      obtain ⟨insertion, c', hadd, hadded⟩ := Chart.add_addedTo hlt i
      exact ⟨insertion, c', hadd, hadded.eq_new_iff, fun _ => hadded.eq_improved_iff hc,
        fun h => (h ▸ hadded).eq_of_kept, hadded.exists_itemAt? hlt⟩
  · obtain ⟨c, rfl, hreach, -⟩ :=
      Parse.exists_saturated ranking_trivial (WeightedGrammar.weightsIn_trivial g) hp
    exact Parse.length_goals_le hreach

/-- One item in two states and once more in the first, there also heavier, for the goal and with a
weight that is no number. -/
def twins : List (Nat × Item Float) :=
  let twin (w : Float) (forGoal : Bool) : Item Float :=
    ⟨.ofRule ⟨"S", [.terminal "a"], 1⟩, 0, 0, .prediction, [], w, forGoal⟩
  [(0, twin 0.25 false), (1, twin 0.5 false), (0, twin 0.5 false), (0, twin 0.5 true),
    (0, twin (0 / 0) false)]

theorem states_are_sets_twins :
    (∀ call ∈ twins, call.1 < 2) ∧
    (∃ c, (Chart.empty 2).addAll twins = .ok c ∧ c.Partitioned ∧
      c.states = #[#[0, 2], #[1]]) ∧
    ∃ p, Parse.ofTokens 20 (.empty "a" : WeightedGrammar Float) ["a"] = .ok p ∧
      p.goals.length ≤ 1 := by
  have hcalls : ∀ call ∈ twins, call.1 < 2 := by simp [twins]
  have hrun : ((Chart.empty 2).addAll twins).toOption.map Chart.states =
      some #[#[0, 2], #[1]] := by decide +kernel
  have hparse : (Parse.ofTokens 20 (.empty "a" : WeightedGrammar Float) ["a"]).isOk = true := by
    decide +kernel
  obtain ⟨c, hc, hpartitioned, -⟩ := states_are_sets.1 2 twins hcalls
  rw [hc] at hrun
  cases hp : Parse.ofTokens 20 (.empty "a" : WeightedGrammar Float) ["a"] with
  | error e => rw [hp] at hparse; cases hparse
  | ok p =>
    exact ⟨hcalls, ⟨c, hc, hpartitioned, Option.some.inj hrun⟩, p, rfl,
      states_are_sets.2 _ _ _ _ hp⟩

end TabularParsing.Earley
