import Mathlib.Data.Multiset.DershowitzManna
import TabularParsing.Proofs.Earley.Saturation
import TabularParsing.Proofs.Earley.Soundness
import TabularParsing.Proofs.Earley.Universe

/-!
# Parses without unit rules end

If no rule rewrites a symbol to a single symbol that is rewritten in turn, a parse ends whatever
the weights. Working on a completed item improves completed items with earlier origins only, and
what is worked on again puts nothing else on the agenda. So the origins of what is to be worked on
descend in the order of multisets.

## Main definitions

* `WeightedGrammar.Unitless`: no unit rules.
* `Edge.reach`: one more than the origin of a completed item, zero for any other.
* `Agenda.pending`: the reaches of what is to be worked on.

## Main statement

* `exists_fillChart_ne_outOfSteps`
-/
namespace TabularParsing

variable {W : Type}

/-- No rule rewrites a symbol to a single symbol that a parse rewrites in turn. -/
def WeightedGrammar.Unitless (g : WeightedGrammar W) : Prop :=
  ∀ ⦃symbol : String⦄, ∀ r ∈ g.alternatives symbol, ∀ p, r.productions = [p] →
    g.isCategory p.symbol = false ∧
      (g.Uses (.nonterminal p.symbol) → g.alternatives p.symbol = [])

namespace Earley

/-! ## Reaches -/

/-- One more than the origin of a completed item of the grammar, zero for any other. -/
def Edge.reach (e : Edge) : Nat :=
  if e.next? = none ∧ e.forGoal = false then e.origin + 1 else 0

/-- The reach of the item at a place. -/
def Chart.reach (c : Chart W) (place : Nat) : Nat := (c.edge? place).elim 0 Edge.reach

theorem Chart.reach_eq {c : Chart W} {place : Nat} {i : Item W} (h : c.items[place]? = some i) :
    c.reach place = i.edge.reach := by
  rw [reach, edge?_of_item h, Option.elim_some]

section Turn

variable [LT W] {c c' : Chart W} {js : List (Item W)} {improved : List Nat}

/-- At an improved position stands an item with the edge of an added one. -/
theorem Chart.Adds.edge?_of_mem_improved (h : c.Adds js improved c') {k position place : Nat}
    {s : Array Nat} (hs : c'.states[k]? = some s) (hstops : ∀ j ∈ js, j.stop = k)
    (hmem : position ∈ improved) (hplace : s[position]? = some place) :
    ∃ j ∈ js, c'.edge? place = some j.edge := by
  induction h with
  | nil => cases hmem
  | @cons c c₁ c' j insertion js improved hadd hadds ih =>
    rcases List.mem_append.1 hmem with hmem | hmem
    · refine ⟨j, List.mem_cons_self, ?_⟩
      cases hadd with
      | new => cases hmem
      | kept => cases hmem
      | @improved position' place' s₁ i hs₁ hplace₁ hi hedge hlt =>
        obtain rfl : position = position' := by simpa [Insertion.position?] using hmem
        have hi₁ : (c.replace place' j).items[place']? = some j := by
          rw [Chart.getElem?_items_replace hi, if_pos rfl]
        obtain ⟨t, ht, -⟩ := hadds.getElem?_states hs₁
        rw [hstops j List.mem_cons_self, hs] at ht
        obtain rfl := Option.some.inj ht
        have hlt' := (Array.getElem?_eq_some_iff.1 hplace₁).1
        rw [Array.getElem?_append_left hlt'] at hplace
        obtain rfl := Option.some.inj (hplace₁.symm.trans hplace)
        rw [hadds.edge?_eq hi₁, Chart.edge?_of_item hi₁]
    · obtain ⟨j', hj', hedge⟩ := ih hs (fun j hj => hstops j (List.mem_cons_of_mem _ hj)) hmem
      exact ⟨j', List.mem_cons_of_mem _ hj', hedge⟩

end Turn

section Reach

variable [One W] [Mul W] [LT W] {g : WeightedGrammar W} {tokens : List String} {c : Chart W}

/-- Where the dot of a waiting item moves to the end of its rule over one production alone, the
rule is a unit rule. -/
theorem Reachable.origin_lt_of_completed (hcons : g.Consistent) (hunit : g.Unitless)
    (h : Reachable g tokens c) {place waitingPlace : Nat} {i waiting : Item W} {p : Production}
    (hi : c.items[place]? = some i) (hw : c.items[waitingPlace]? = some waiting)
    (hnext : i.dotted.next? = none) (hgoal : i.forGoal = false) (hstop : waiting.stop = i.origin)
    (hwnext : waiting.dotted.next? = some p) (hsymbol : p.symbol = i.symbol)
    (hwgoal : waiting.forGoal = false) (hend : waiting.dotted.advance.next? = none) :
    waiting.origin < i.origin := by
  rcases Nat.eq_zero_or_pos waiting.dotted.dot with hdot | hdot
  · have hone : waiting.dotted.rule.productions = [p] := by
      rw [DottedRule.next?, hdot] at hwnext
      rw [DottedRule.next?, DottedRule.advance, hdot, List.getElem?_eq_none_iff] at hend
      obtain ⟨q, hq⟩ := List.length_eq_one_iff.1
        (Nat.le_antisymm hend (List.getElem?_eq_some_iff.1 hwnext).1)
      rw [hq] at hwnext ⊢
      rw [Option.some.inj hwnext]
    obtain ⟨hstems, -⟩ := (h.sound hcons hw).stems hwnext
    cases hstems with
    | goal hforGoal => rw [hwgoal] at hforGoal; cases hforGoal
    | alternative _ hrule _ _ =>
      obtain ⟨hcategory, hnone⟩ := hunit _ hrule p hone
      rw [hsymbol] at hcategory hnone
      cases h.sound hcons hi with
      | spelled hstems _ =>
        cases hstems with
        | goal hforGoal => rw [hgoal] at hforGoal; cases hforGoal
        | alternative _ hrule' _ huses =>
          rw [hnone huses] at hrule'
          cases hrule'
      | listed _ hlisted =>
        have hcategory' := WeightedGrammar.isCategory_of_wordWeight? hlisted
        exact absurd hcategory' (by simpa [Item.listed, Item.symbol] using hcategory)
  · exact hstop ▸ (h.proper hw).origin_lt hdot

/-- What a completed item completes has an earlier origin, if it is completed itself. -/
theorem Reachable.reach_lt (hcons : g.Consistent) (hunit : g.Unitless) (h : Reachable g tokens c)
    {place : Nat} {i j : Item W} (hi : c.items[place]? = some i)
    (hnext : i.dotted.next? = none) (hj : Infers g tokens c place i j) :
    j.edge.reach < i.edge.reach := by
  cases hj with
  | predicted hp => rw [hnext] at hp; cases hp
  | listed hp => rw [hnext] at hp; cases hp
  | literal hp => rw [hnext] at hp; cases hp
  | @completed waitingPlace waiting p _ hgoal hw hstop hwnext hsymbol =>
    have hreach : i.edge.reach = i.origin + 1 := if_pos ⟨hnext, hgoal⟩
    rw [hreach, Edge.reach]
    split
    · rename_i hend
      have hlt := h.origin_lt_of_completed hcons hunit hi hw hnext hgoal hstop hwnext hsymbol
        hend.2 hend.1
      exact Nat.add_lt_add_right hlt 1
    · exact Nat.succ_pos _

end Reach

/-! ## What is to be worked on -/

namespace Agenda

/-- Requeuing puts places on top. -/
theorem exists_requeue_eq (a : Agenda) (s : Array Nat) (improved : List Nat) :
    ∃ places, (a.requeue s improved).requeued = places ++ a.requeued ∧
      ∀ place ∈ places, ∃ position ∈ improved, s[position]? = some place := by
  unfold requeue
  generalize a.requeued = rest
  induction improved generalizing rest with
  | nil => exact ⟨[], rfl, fun _ h => by cases h⟩
  | cons position improved ih =>
    rw [List.foldl_cons]
    split
    · obtain ⟨places, hplaces, hmem⟩ := ih ((s[position]?).toList ++ rest)
      refine ⟨places ++ (s[position]?).toList, by rw [hplaces, List.append_assoc], ?_⟩
      intro place hplace
      rcases List.mem_append.1 hplace with hplace | hplace
      · obtain ⟨position', hposition', hget⟩ := hmem place hplace
        exact ⟨position', List.mem_cons_of_mem _ hposition', hget⟩
      · exact ⟨position, List.mem_cons_self, Option.mem_toList.1 hplace⟩
    · obtain ⟨places, hplaces, hmem⟩ := ih rest
      refine ⟨places, hplaces, fun place hplace => ?_⟩
      obtain ⟨position', hposition', hget⟩ := hmem place hplace
      exact ⟨position', List.mem_cons_of_mem _ hposition', hget⟩

/-- The edges of the places before the cursor. -/
def visited (a : Agenda) (c : Chart W) (s : Array Nat) : Finset Edge :=
  ((s.toList.take a.cursor).filterMap c.edge?).toFinset

/-- The reaches of the requeued places and of the edges that are not visited yet, whether they
stand in the chart or not. -/
def pending (all : Finset Edge) (a : Agenda) (c : Chart W) (s : Array Nat) : Multiset Nat :=
  (a.requeued.map c.reach : Multiset Nat) + (all \ a.visited c s).val.map Edge.reach

variable [One W] [Mul W] [LT W] {g : WeightedGrammar W} {tokens : List String} {c c' : Chart W}
variable {a a' : Agenda} {s : Array Nat} {place : Nat} {i : Item W}

/-- The next place is one of those that are to be worked on, and what is left are the others. -/
theorem pending_next (h : Reachable g tokens c) (hs : c.states[i.stop]? = some s)
    (hnext : a.next? s = some (place, a')) (hi : c.items[place]? = some i) :
    a.pending (edges g tokens.length) c s =
      i.edge.reach ::ₘ a'.pending (edges g tokens.length) c s := by
  rcases next?_eq_some_iff.1 hnext with ⟨hplace, rfl⟩ | ⟨-, rest, hrest, rfl⟩
  · have hvisited : visited ⟨a.cursor + 1, a.requeued⟩ c s = insert i.edge (a.visited c s) := by
      have hget : s.toList[a.cursor]? = some place := by rw [Array.getElem?_toList, hplace]
      have hedge := Chart.edge?_of_item hi
      simp only [visited, List.take_add_one, hget, Option.toList_some, List.filterMap_append,
        List.filterMap_cons, hedge, List.filterMap_nil, List.toFinset_append, List.toFinset_cons,
        List.toFinset_nil]
      rw [Finset.union_comm]
      rfl
    have hnew : i.edge ∉ a.visited c s := by
      intro hmem
      obtain ⟨q, hq, hedge⟩ := List.mem_filterMap.1 (List.mem_toFinset.1 hmem)
      obtain ⟨j, hj, hij⟩ := Option.map_eq_some_iff.1 hedge
      obtain rfl := h.valid.apart hj hi hij
      -- the place stands in the state once, at the cursor
      obtain ⟨position, hposition, hget⟩ := List.mem_take_iff_getElem.1 hq
      obtain ⟨hlt, hget'⟩ := List.getElem?_eq_some_iff.1 (Array.getElem?_toList ▸ hplace)
      have := (h.valid.nodup hs).getElem_inj_iff.1 (hget.trans hget'.symm)
      omega
    have hmem : i.edge ∈ edges g tokens.length \ a.visited c s :=
      Finset.mem_sdiff.2 ⟨h.edge_mem hi, hnew⟩
    rw [pending, pending, hvisited, Finset.sdiff_insert, Finset.erase_val,
      ← Multiset.add_cons, ← Multiset.map_cons, Multiset.cons_erase hmem]
  · rw [pending, pending, hrest, List.map_cons, ← Multiset.cons_coe, Multiset.cons_add,
      Chart.reach_eq hi]
    rfl

omit [One W] [Mul W] [LT W] in
theorem bounds_next? (hcursor : a.cursor ≤ s.size)
    (hrequeued : ∀ {q : Nat}, q ∈ a.requeued → q ∈ s) (hnext : a.next? s = some (place, a')) :
    a'.cursor ≤ s.size ∧ ∀ {q : Nat}, q ∈ a'.requeued → q ∈ s := by
  rcases next?_eq_some_iff.1 hnext with ⟨hplace, rfl⟩ | ⟨-, rest, hrest, rfl⟩
  · exact ⟨(Array.getElem?_eq_some_iff.1 hplace).1, hrequeued⟩
  · exact ⟨hcursor, fun hq => hrequeued (hrest ▸ List.mem_cons_of_mem _ hq)⟩

omit [One W] [Mul W] [LT W] in
theorem mem_of_next? (hrequeued : ∀ {q : Nat}, q ∈ a.requeued → q ∈ s)
    (hnext : a.next? s = some (place, a')) : place ∈ s := by
  rcases next?_eq_some_iff.1 hnext with ⟨hplace, -⟩ | ⟨-, rest, hrest, -⟩
  · exact Array.mem_of_getElem? hplace
  · exact hrequeued (hrest ▸ List.mem_cons_self)

omit [One W] [Mul W] [LT W] in
/-- What was visited stays visited when the state grows. -/
theorem visited_append {t : Array Nat} (hcursor : a.cursor ≤ s.size)
    (hedges : ∀ q ∈ s, c'.edge? q = c.edge? q) : a.visited c' (s ++ t) = a.visited c s := by
  have htake : (s ++ t).toList.take a.cursor = s.toList.take a.cursor := by
    rw [Array.toList_append, List.take_append_of_le_length (by simpa using hcursor)]
  rw [visited, visited, htake]
  refine congrArg List.toFinset (List.filterMap_congr fun q hq => ?_)
  exact hedges q (Array.mem_toList_iff.1 (List.mem_of_mem_take hq))

omit [One W] [Mul W] [LT W] in
/-- When a state grows, the requeued places are added to what is to be worked on. -/
theorem pending_requeue (all : Finset Edge) {t : Array Nat} {improved places : List Nat}
    (hcursor : a.cursor ≤ s.size) (hrequeued : ∀ {q : Nat}, q ∈ a.requeued → q ∈ s)
    (hedges : ∀ q ∈ s, c'.edge? q = c.edge? q)
    (hplaces : (a.requeue (s ++ t) improved).requeued = places ++ a.requeued) :
    (a.requeue (s ++ t) improved).pending all c' (s ++ t) =
      a.pending all c s + (places.map c'.reach : Multiset Nat) := by
  have hrest : a.requeued.map c'.reach = a.requeued.map c.reach := by
    refine List.map_congr_left fun q hq => ?_
    rw [Chart.reach, Chart.reach, hedges q (hrequeued hq)]
  have hvisited : (a.requeue (s ++ t) improved).visited c' (s ++ t) = a.visited c s :=
    visited_append hcursor hedges
  rw [pending, pending, hplaces, hvisited, List.map_append, hrest, ← Multiset.coe_add, add_assoc,
    add_comm]

/-- What a turn answers with improved positions has less reach than the item worked on: only a
completed item answers any, and all it adds stands in its state. -/
theorem reach_lt_of_improved {js : List (Item W)} {improved : List Nat} {s' : Array Nat}
    (hcons : g.Consistent) (hunit : g.Unitless) (h : Reachable g tokens c)
    (hi : c.items[place]? = some i) (hadds : c.Adds js improved c')
    (hjs : ∀ j, j ∈ js ↔ Infers g tokens c place i j) (hs' : c'.states[i.stop]? = some s')
    {position q : Nat} (hposition : position ∈ if i.isComplete then improved else [])
    (hget : s'[position]? = some q) : c'.reach q < i.edge.reach := by
  cases hdot : i.dotted.next? with
  | some p =>
    have hactive : i.isComplete = false := by
      rw [Item.isComplete, DottedRule.isActive_iff.2 (by rw [hdot]; rfl)]; rfl
    rw [hactive] at hposition
    cases hposition
  | none =>
    have hcomplete : i.isComplete = true := by
      rw [Item.isComplete, DottedRule.isActive_eq_false_iff.2 hdot]; rfl
    rw [if_pos hcomplete] at hposition
    have hstops : ∀ j ∈ js, j.stop = i.stop := by
      intro j hj
      cases (hjs j).1 hj with
      | completed => rfl
      | predicted hp => rw [hdot] at hp; cases hp
      | listed hp => rw [hdot] at hp; cases hp
      | literal hp => rw [hdot] at hp; cases hp
    obtain ⟨j, hj, hedge⟩ := hadds.edge?_of_mem_improved hs' hstops hposition hget
    rw [Chart.reach, hedge]
    exact h.reach_lt hcons hunit hi hdot ((hjs j).1 hj)

/-- A turn replaces what was worked on by things of less reach. -/
theorem pending_turn {js : List (Item W)} {improved : List Nat} {s' : Array Nat}
    (hcons : g.Consistent) (hunit : g.Unitless) (h : Reachable g tokens c)
    (hs : c.states[i.stop]? = some s) (hcursor : a.cursor ≤ s.size)
    (hrequeued : ∀ {q : Nat}, q ∈ a.requeued → q ∈ s) (hnext : a.next? s = some (place, a'))
    (hi : c.items[place]? = some i) (hadds : c.Adds js improved c')
    (hjs : ∀ j, j ∈ js ↔ Infers g tokens c place i j) (hs' : c'.states[i.stop]? = some s') :
    ((a'.requeue s' (if i.isComplete then improved else [])).pending (edges g tokens.length) c'
      s').IsDershowitzMannaLT (a.pending (edges g tokens.length) c s) := by
  obtain ⟨t, ht, -⟩ := hadds.getElem?_states hs
  obtain rfl := Option.some.inj (hs'.symm.trans ht)
  obtain ⟨hcursor', hrequeued'⟩ := bounds_next? hcursor hrequeued hnext
  have hedges : ∀ q ∈ s, c'.edge? q = c.edge? q := by
    intro q hq
    obtain ⟨x, hx, -⟩ := h.exists_item hs hq
    exact hadds.edge?_eq hx
  obtain ⟨places, hplaces, hmem⟩ :=
    a'.exists_requeue_eq (s ++ t) (if i.isComplete then improved else [])
  have hpending := pending_requeue (edges g tokens.length) hcursor' hrequeued' hedges hplaces
  refine ⟨_, _, {i.edge.reach}, Multiset.singleton_ne_zero _, hpending, ?_, ?_⟩
  · rw [pending_next h hs hnext hi, Multiset.add_comm, Multiset.singleton_add]
  · intro y hy
    obtain ⟨q, hq, rfl⟩ := List.mem_map.1 (Multiset.mem_coe.1 hy)
    obtain ⟨position, hposition, hget⟩ := hmem q hq
    exact ⟨_, Multiset.mem_singleton_self _,
      reach_lt_of_improved hcons hunit h hi hadds hjs hs' hposition hget⟩

end Agenda

/-! ## Working and filling -/

variable [One W] [Mul W] [LT W] [DecidableLT W] {g : WeightedGrammar W} {tokens : List String}
variable {c : Chart W}

omit [One W] in
/-- A run that ends goes on to end the same way with more turns. -/
theorem work_eq_of_le {k n m : Nat} {a : Agenda}
    (h : work g tokens k n a c ≠ .error .outOfSteps) (hn : n ≤ m) :
    work g tokens k m a c = work g tokens k n a c := by
  induction n generalizing a c m with
  | zero =>
    unfold work at h ⊢
    cases hs : c.state k with
    | error e => rfl
    | ok s =>
      simp only [hs, bind, Except.bind] at h ⊢
      cases hnext : a.next? s with
      | none => rfl
      | some next => simp [hnext] at h
  | succ n ih =>
    obtain ⟨m, rfl⟩ : ∃ m', m = m' + 1 := ⟨m - 1, by omega⟩
    unfold work at h ⊢
    cases hs : c.state k with
    | error e => rfl
    | ok s =>
      simp only [hs, bind, Except.bind] at h ⊢
      cases hnext : a.next? s with
      | none => rfl
      | some next =>
        obtain ⟨place, a'⟩ := next
        simp only [hnext] at h ⊢
        cases hprocess : process g tokens k place c with
        | error e => rfl
        | ok result =>
          obtain ⟨c', improved⟩ := result
          simp only [hprocess] at h ⊢
          cases hs' : c'.state k with
          | error e => rfl
          | ok s' =>
            simp only [hs'] at h ⊢
            exact ih h (by omega)

/-- Without unit rules a state is worked off in some number of turns. -/
theorem exists_work_ne_outOfSteps (hcons : g.Consistent) (hunit : g.Unitless) {k : Nat}
    {a : Agenda} {s : Array Nat} (hreach : Reachable g tokens c) (hs : c.states[k]? = some s)
    (hcursor : a.cursor ≤ s.size) (hrequeued : ∀ {q : Nat}, q ∈ a.requeued → q ∈ s) :
    ∃ n, work g tokens k n a c ≠ .error .outOfSteps := by
  have hwf : WellFounded (Multiset.IsDershowitzMannaLT : Multiset Nat → Multiset Nat → Prop) :=
    Multiset.wellFounded_isDershowitzMannaLT
  induction hM : a.pending (edges g tokens.length) c s using hwf.induction
    generalizing a c s with
  | _ M ih =>
    cases hnext : a.next? s with
    | none =>
      refine ⟨0, ?_⟩
      unfold work
      simp [Chart.state_eq_ok_iff.2 hs, hnext, bind, Except.bind, pure, Except.pure]
    | some next =>
      obtain ⟨place, a'⟩ := next
      obtain ⟨hcursor', hrequeued'⟩ := Agenda.bounds_next? hcursor hrequeued hnext
      have hplace : place ∈ s := Agenda.mem_of_next? hrequeued hnext
      obtain ⟨i, hi, rfl⟩ := hreach.exists_item hs hplace
      obtain ⟨js, improved, c', hok, hadds, hjs, hreach'⟩ := hreach.process_ok hi
      obtain ⟨t, ht, -⟩ := hadds.getElem?_states hs
      have hlt := Agenda.pending_turn hcons hunit hreach hs hcursor hrequeued hnext hi hadds hjs ht
      have hrest : ∃ n, work g tokens i.stop n
          (a'.requeue (s ++ t) (if i.isComplete then improved else [])) c' ≠
            .error .outOfSteps := by
        refine ih _ (hM ▸ hlt) hreach' ht ?_ (fun {q} hq => ?_) rfl
        · exact Nat.le_trans hcursor' (by rw [Array.size_append]; exact Nat.le_add_right _ _)
        · rcases Agenda.mem_requeue_iff.1 hq with hq | ⟨position, -, -, hq⟩
          · exact Array.mem_append_left _ (hrequeued' hq)
          · exact Array.mem_of_getElem? hq
      obtain ⟨n, hn⟩ := hrest
      refine ⟨n + 1, ?_⟩
      unfold work
      simpa only [Chart.state_eq_ok_iff.2 hs, hnext, hok, Chart.state_eq_ok_iff.2 ht, bind,
        Except.bind] using hn

/-- With turns enough, the states up to a position are filled the same way however many they
are. -/
theorem exists_foldlM_work (hcons : g.Consistent) (hunit : g.Unitless) {k : Nat}
    (hk : k ≤ tokens.length + 1) :
    ∃ bound c, Reachable g tokens c ∧ SettledBelow (fun _ _ => True) g tokens k c ∧
      ∀ limit, bound ≤ limit → (List.range k).foldlM (fun c k => work g tokens k limit ⟨0, []⟩ c)
        (initialChart g tokens) = .ok c := by
  induction k with
  | zero =>
    exact ⟨0, _, .initial, fun _ _ _ h => absurd h (Nat.not_lt_zero _), fun _ _ => rfl⟩
  | succ k ih =>
    obtain ⟨bound, c, hreach, hbelow, hok⟩ := ih (by omega)
    have hs := Array.getElem?_eq_getElem (show k < c.states.size by rw [hreach.size_states]; omega)
    obtain ⟨n, hn⟩ : ∃ n, work g tokens k n ⟨0, []⟩ c ≠ .error .outOfSteps :=
      exists_work_ne_outOfSteps hcons hunit hreach hs (Nat.zero_le _)
        fun hq => absurd hq List.not_mem_nil
    rcases work_saturated (n := n) ranking_trivial (WeightedGrammar.weightsIn_trivial g) hreach hs
      hbelow (Agenda.covers_start c _) with hwork | ⟨c', hwork, hreach', hbelow'⟩
    · exact absurd hwork hn
    · refine ⟨max bound n, c', hreach', hbelow', fun limit hlimit => ?_⟩
      rw [List.range_succ, List.foldlM_append, hok limit (by omega)]
      simp only [List.foldlM_cons, List.foldlM_nil, bind_pure]
      exact (work_eq_of_le hn (by omega)).trans hwork

/-- Without unit rules a parse ends, whatever the weights. -/
theorem exists_fillChart_ne_outOfSteps (hcons : g.Consistent) (hunit : g.Unitless)
    (tokens : List String) :
    ∃ bound, ∀ limit, bound ≤ limit → fillChart limit g tokens ≠ .error .outOfSteps := by
  obtain ⟨bound, c, -, -, hok⟩ := exists_foldlM_work hcons hunit (Nat.le_refl (tokens.length + 1))
  refine ⟨bound, fun limit hlimit => ?_⟩
  rw [fillChart, hok limit hlimit]
  exact fun h => by cases h

end Earley

end TabularParsing
