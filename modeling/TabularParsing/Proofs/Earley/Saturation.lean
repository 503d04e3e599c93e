import TabularParsing.Proofs.Earley.Reachable
import TabularParsing.Proofs.Ranking

/-!
# A finished chart is saturated

An item is settled if all that follows from it stands in the chart, no lighter. The agenda keeps
this invariant: every place before the cursor is requeued or holds a settled item. A completed
item that improves is requeued. A prediction that is made again changes nothing, for all
alternatives of its symbol stand in the chart by then, and a word is scanned into a later state.

## Main definitions

* `Settled`: all that follows from an item stands in the chart.
* `Agenda.Covers`: what the agenda has left is all that there is to do.
* `Saturated`: every item is settled.

## Main statement

* `fillChart_saturated`
-/
namespace TabularParsing

namespace Earley

variable {W : Type}

/-! ## Edges of what follows -/

theorem Item.edge_predicted {g : WeightedGrammar W} {symbol : String} {r : WeightedRule W}
    (k : Nat) (h : r ∈ g.alternatives symbol) :
    (predicted k r).edge = ⟨symbol, r.productions, 0, k, k, false⟩ := by
  rw [← (g.filed _ _ h).1]
  rfl

@[simp] theorem Item.edge_overWord (i : Item W) :
    i.overWord.edge = i.edge.advance (i.stop + 1) := rfl

@[simp] theorem Item.edge_overItem [Mul W] (i done : Item W) (place : Nat) :
    (i.overItem place done).edge = i.edge.advance done.stop := rfl

/-- An item with this edge stands in the chart and weighs this much at least. -/
def Chart.Holds (le : W → W → Prop) (c : Chart W) (e : Edge) (x : W) : Prop :=
  ∃ (place : Nat) (i : Item W), c.items[place]? = some i ∧ i.edge = e ∧ le x i.weight

section Settled

variable [Mul W] {le : W → W → Prop} {g : WeightedGrammar W} {tokens : List String} {c : Chart W}

/-- All that follows from an item stands in the chart, no lighter. -/
def Settled (le : W → W → Prop) (g : WeightedGrammar W) (tokens : List String) (c : Chart W)
    (place : Nat) (i : Item W) : Prop :=
  ∀ {j : Item W}, Infers g tokens c place i j → c.Holds le j.edge j.weight

/-- Every place of a state before the cursor is requeued or holds a settled item. -/
structure Agenda.Covers (le : W → W → Prop) (g : WeightedGrammar W) (tokens : List String)
    (a : Agenda) (c : Chart W) (s : Array Nat) : Prop where
  cursor_le : a.cursor ≤ s.size
  mem_of_requeued : ∀ {place : Nat}, place ∈ a.requeued → place ∈ s
  settled : ∀ {position place : Nat} {i : Item W}, position < a.cursor →
    s[position]? = some place → c.items[place]? = some i → place ∉ a.requeued →
    Settled le g tokens c place i

theorem Agenda.covers_start (c : Chart W) (s : Array Nat) :
    Agenda.Covers le g tokens ⟨0, []⟩ c s where
  cursor_le := Nat.zero_le _
  mem_of_requeued h := absurd h List.not_mem_nil
  settled h := absurd h (Nat.not_lt_zero _)

/-- The place whose turn it is stands in the state, and what is left of the agenda covers all
others. -/
theorem Agenda.Covers.next {a a' : Agenda} {s : Array Nat} {place : Nat}
    (h : a.Covers le g tokens c s) (hnext : a.next? s = some (place, a')) :
    place ∈ s ∧ a'.cursor ≤ s.size ∧ (∀ {q : Nat}, q ∈ a'.requeued → q ∈ s) ∧
      ∀ {position q : Nat} {i : Item W}, position < a'.cursor → s[position]? = some q →
        q ≠ place → c.items[q]? = some i → q ∉ a'.requeued → Settled le g tokens c q i := by
  rcases Agenda.next?_eq_some_iff.1 hnext with ⟨hplace, rfl⟩ | ⟨-, rest, hrest, rfl⟩
  · refine ⟨Array.mem_of_getElem? hplace, (Array.getElem?_eq_some_iff.1 hplace).1,
      h.mem_of_requeued, ?_⟩
    intro position q i hposition hq hne hi hmem
    refine h.settled ?_ hq hi hmem
    rcases Nat.lt_succ_iff_lt_or_eq.1 hposition with hlt | rfl
    · exact hlt
    · exact absurd (Option.some.inj (hq.symm.trans hplace)) hne
  · have hmem {q : Nat} (hq : q ∈ a.requeued) := h.mem_of_requeued hq
    rw [hrest] at hmem
    refine ⟨hmem List.mem_cons_self, h.cursor_le, fun hq => hmem (List.mem_cons_of_mem _ hq), ?_⟩
    intro position q i hposition hq hne hi hnot
    refine h.settled hposition hq hi ?_
    rw [hrest, List.mem_cons]
    exact fun hor => hor.elim hne hnot

end Settled

variable [One W] [Mul W] [LT W] {P : W → Prop} {le : W → W → Prop}
variable {g : WeightedGrammar W} {tokens : List String} {c c' : Chart W}
variable {js : List (Item W)} {improved : List Nat}

namespace Chart

theorem Holds.trans (hr : Ranking P le) (hc : c.All fun i => P i.weight) {e : Edge}
    {x y : W} (hx : P x) (hy : P y) (hle : le x y) (h : c.Holds le e y) : c.Holds le e x := by
  obtain ⟨place, i, hi, hedge, hle'⟩ := h
  exact ⟨place, i, hi, hedge, hr.trans hx hy (hc hi) hle hle'⟩

theorem Holds.added {j : Item W} {insertion : Insertion} {e : Edge} {x : W} (hr : Ranking P le)
    (hc : c.All fun i => P i.weight) (hj : P j.weight) (hx : P x) (h : c.Holds le e x)
    (hadd : c.Added j insertion c') : c'.Holds le e x := by
  obtain ⟨place, i, hi, hedge, hle⟩ := h
  rcases hadd.kept_or_replaced hi with hi' | ⟨hj', hij, hlt, -⟩
  · exact ⟨place, i, hi', hedge, hle⟩
  · exact ⟨place, j, hj', hij ▸ hedge, hr.trans hx (hc hi) hj hle (hr.of_lt (hc hi) hj hlt)⟩

theorem Added.holds {j : Item W} {insertion : Insertion} (hr : Ranking P le)
    (hc : c.All fun i => P i.weight) (hj : P j.weight) (hadd : c.Added j insertion c') :
    c'.Holds le j.edge j.weight := by
  obtain ⟨place, i, hi, hedge, rfl | hlt⟩ := hadd.exists_item
  · exact ⟨place, i, hi, rfl, hr.refl hj⟩
  · refine ⟨place, i, hi, hedge, ?_⟩
    rcases hadd.eq_or_eq hi with hi | rfl
    · exact hr.of_not_lt (hc hi) hj hlt
    · exact hr.refl hj

/-- What the chart holds it goes on to hold. -/
theorem Holds.adds {e : Edge} {x : W} (hr : Ranking P le) (hc : c.All fun i => P i.weight)
    (hjs : ∀ j ∈ js, P j.weight) (hx : P x) (h : c.Holds le e x)
    (hadds : c.Adds js improved c') : c'.Holds le e x := by
  induction hadds with
  | nil => exact h
  | cons hadd _ ih =>
    have hj := hjs _ List.mem_cons_self
    exact ih (hadd.all hc hj) (fun j hj => hjs j (List.mem_cons_of_mem _ hj))
      (h.added hr hc hj hx hadd)

theorem Adds.holds (hr : Ranking P le) (hc : c.All fun i => P i.weight)
    (hjs : ∀ j ∈ js, P j.weight) (hadds : c.Adds js improved c') {j : Item W} (hj : j ∈ js) :
    c'.Holds le j.edge j.weight := by
  induction hadds with
  | nil => cases hj
  | @cons c c' c'' j' insertion js improved hadd hadds ih =>
    have hj' := hjs _ List.mem_cons_self
    have hc' : c'.All fun i => P i.weight := hadd.all hc hj'
    have hjs' := fun j hj => hjs j (List.mem_cons_of_mem _ hj)
    rcases List.mem_cons.1 hj with rfl | hj
    · exact (hadd.holds hr hc hj').adds hr hc' hjs' hj' hadds
    · exact ih hc' hjs' hj

end Chart

/-! ## What follows from heavier items -/

/-- Of two items with one edge the heavier one has the heavier conclusions. -/
theorem Infers.exists_heavier {place : Nat} {i i' j : Item W} (hr : Ranking P le)
    (hg : g.WeightsIn P) (hc : c.All fun i => P i.weight) (hi : P i.weight) (hi' : P i'.weight)
    (hedge : i.edge = i'.edge) (hle : le i.weight i'.weight)
    (h : Infers g tokens c place i j) :
    ∃ j', Infers g tokens c place i' j' ∧ j.edge = j'.edge ∧ le j.weight j'.weight := by
  have hnext : i.dotted.next? = i'.dotted.next? := congrArg Edge.next? hedge
  have hsymbol : i.symbol = i'.symbol := congrArg Edge.symbol hedge
  have horigin : i.origin = i'.origin := congrArg Edge.origin hedge
  have hstop : i.stop = i'.stop := congrArg Edge.stop hedge
  have hgoal : i.forGoal = i'.forGoal := congrArg Edge.forGoal hedge
  cases h with
  | predicted h hterminal hcategory hrule =>
    rw [hnext] at h
    rw [hstop]
    exact ⟨_, .predicted h hterminal hcategory hrule, rfl, hr.refl (hg.rules hrule)⟩
  | listed h hword hw =>
    rw [hnext] at h
    rw [hstop] at hword ⊢
    exact ⟨_, .listed h hword hw, rfl, hr.refl (hg.words hw)⟩
  | literal h hterminal hcategory hword =>
    rw [hnext] at h
    rw [hstop] at hword
    refine ⟨_, .literal h hterminal hcategory hword, ?_, hle⟩
    rw [Item.edge_overWord, Item.edge_overWord, hedge, hstop]
  | completed h hforGoal hw hwstop hwnext hwsymbol =>
    rw [hnext] at h
    rw [hgoal] at hforGoal
    rw [horigin] at hwstop
    rw [hsymbol] at hwsymbol
    refine ⟨_, .completed h hforGoal hw hwstop hwnext hwsymbol, ?_, ?_⟩
    · rw [Item.edge_overItem, Item.edge_overItem, hstop]
    · exact hr.mul_le_mul hi hi' (hc hw) (hc hw) hle (hr.refl (hc hw))

theorem Infers.weight {place : Nat} {i j : Item W} (hr : Ranking P le) (hg : g.WeightsIn P)
    (hc : c.All fun i => P i.weight) (hi : P i.weight) (h : Infers g tokens c place i j) :
    P j.weight := by
  cases h with
  | predicted _ _ _ hrule => exact hg.rules hrule
  | listed _ _ hw => exact hg.words hw
  | literal => exact hi
  | completed _ _ hw _ _ _ => exact hr.mul hi (hc hw)

namespace Reachable

theorem weights (hr : Ranking P le) (hg : g.WeightsIn P) (h : Reachable g tokens c) :
    c.All fun i => P i.weight :=
  h.all hr.one fun hc hi => Infers.weight hr hg hc hi

section Turn

variable {place : Nat} {i : Item W} (hr : Ranking P le) (hg : g.WeightsIn P)
  (h : Reachable g tokens c) (hi : c.items[place]? = some i) (hadds : c.Adds js improved c')
  (hjs : ∀ j, j ∈ js ↔ Infers g tokens c place i j)

include hr hg h hi hjs

theorem weights_turn : ∀ j ∈ js, P j.weight := by
  have hc := h.weights hr hg
  intro j hj
  exact ((hjs j).1 hj).weight hr hg hc (hc hi)

include hadds

/-- What the chart holds it holds after a turn. -/
theorem holds_turn {e : Edge} {x : W} (hx : P x) (hold : c.Holds le e x) : c'.Holds le e x :=
  hold.adds hr (h.weights hr hg) (h.weights_turn hr hg hi hjs) hx hadds

/-- What follows from an item stands in the chart after its turn. -/
theorem holds_infers {j : Item W} (hj : Infers g tokens c place i j) :
    c'.Holds le j.edge j.weight :=
  hadds.holds hr (h.weights hr hg) (h.weights_turn hr hg hi hjs) ((hjs j).2 hj)

end Turn

/-- Where one alternative of a symbol was predicted, all its alternatives were. -/
theorem holds_predicted (hr : Ranking P le) (hg : g.WeightsIn P)
    (h : Reachable g tokens c) {place : Nat} {i : Item W} (hi : c.items[place]? = some i)
    (hdot : i.dotted.dot = 0) (hgoal : i.forGoal = false) {r : WeightedRule W}
    (hrule : r ∈ g.alternatives i.symbol) :
    c.Holds le (Item.predicted i.stop r).edge r.weight := by
  induction h generalizing place i r with
  | initial =>
    rw [(getElem?_items_initialChart.1 hi).2] at hgoal
    cases hgoal
  | @turn c c' place₀ i₀ js improved hreach hi₀ hadds hjs ih =>
    rcases hadds.mem_or_mem hi with hold | hnew
    · exact hreach.holds_turn hr hg hi₀ hadds hjs (hg.rules hrule) (ih hold hdot hgoal hrule)
    · cases (hjs i).1 hnew with
      | @predicted p r' hnext hterminal hcategory hrule' =>
        have hsymbol : (Item.predicted i₀.stop r').symbol = p.symbol := (g.filed _ _ hrule').1
        rw [hsymbol] at hrule
        exact hreach.holds_infers hr hg hi₀ hadds hjs
          (.predicted hnext hterminal hcategory hrule)
      | listed => cases hdot
      | literal => cases hdot
      | completed => cases hdot

/-- A turn on an item that is not completed puts nothing heavier into its state. -/
theorem le_of_replaced (hr : Ranking P le) (hg : g.WeightsIn P)
    (h : Reachable g tokens c) {place q : Nat} {i x x' : Item W} {p : Production}
    (hnext : i.dotted.next? = some p) (hx : c.items[q]? = some x) (hstop : x.stop = i.stop)
    (hedge : x'.edge = x.edge) (hinfers : Infers g tokens c place i x') :
    le x'.weight x.weight := by
  have hstop' : x'.stop = i.stop := (congrArg Edge.stop hedge).trans hstop
  cases hinfers with
  | @predicted p' r _ _ _ hrule =>
    have hsymbol : p'.symbol = x.symbol :=
      (g.filed _ _ hrule).1.symm.trans (congrArg Edge.symbol hedge)
    rw [hsymbol] at hrule
    obtain ⟨q', y, hy, hyedge, hle⟩ := h.holds_predicted hr hg hx (congrArg Edge.dot hedge).symm
      (congrArg Edge.forGoal hedge).symm hrule
    rw [hstop, hedge] at hyedge
    obtain rfl := h.valid.apart hy hx hyedge
    obtain rfl := Option.some.inj (hy.symm.trans hx)
    exact hle
  | listed => exact absurd hstop' (Nat.succ_ne_self _)
  | literal => exact absurd hstop' (Nat.succ_ne_self _)
  | completed hnone => rw [hnext] at hnone; cases hnone

/-- An item is settled by what followed from one with its edge that was no lighter. -/
theorem settled_of_le (hr : Ranking P le) (hg : g.WeightsIn P) (h : Reachable g tokens c)
    (h' : Reachable g tokens c') (hadds : c.Adds js improved c') {place : Nat} {x x' : Item W}
    (hstops : ∀ j ∈ js, x'.stop ≤ j.stop) (hx : c.items[place]? = some x)
    (hx' : c'.items[place]? = some x') (hedge : x'.edge = x.edge) (hle : le x'.weight x.weight)
    (hold : ∀ {j : Item W}, Infers g tokens c place x j → c'.Holds le j.edge j.weight) :
    Settled le g tokens c' place x' := by
  have hc := h.weights hr hg
  have hwx := hc hx
  have hwx' : P x'.weight := h'.weights hr hg hx'
  intro j hj
  have hinfers : Infers g tokens c place x' j := hj.of_adds hadds hstops (h'.proper hx')
  obtain ⟨j', hj', hjedge, hjle⟩ := hinfers.exists_heavier hr hg hc hwx' hwx hedge hle
  have hwj := hinfers.weight hr hg hc hwx'
  have hwj' := hj'.weight hr hg hc hwx
  rw [hjedge]
  exact (hold hj').trans hr (h'.weights hr hg) hwj hwj' hjle

end Reachable

/-! ## The agenda -/

/-- Unless it is requeued, what stands before the cursor did not get heavier. -/
theorem Agenda.le_of_not_mem_requeue {a : Agenda} {position place q : Nat} {s : Array Nat}
    {i x x' : Item W} (hr : Ranking P le) (hg : g.WeightsIn P) (hreach : Reachable g tokens c)
    (hvalid : c'.Valid) (hadds : c.Adds js improved c')
    (hjs : ∀ j, j ∈ js ↔ Infers g tokens c place i j) (hs : c'.states[i.stop]? = some s)
    (hx : c.items[q]? = some x) (hstop : x.stop = i.stop) (hx' : c'.items[q]? = some x')
    (hposition : position < a.cursor) (hq : s[position]? = some q)
    (hnot : q ∉ (a.requeue s (if i.isComplete then improved else [])).requeued) :
    le x'.weight x.weight := by
  obtain ⟨y, hy, hedge, hor⟩ := hadds.exists_same_edge hx
  obtain rfl := Option.some.inj (hx'.symm.trans hy)
  rcases hor with rfl | ⟨hmem, position', hposition', t, ht, hq'⟩
  · exact hr.refl (hreach.weights hr hg hx)
  · cases hdot : i.dotted.next? with
    | some p => exact hreach.le_of_replaced hr hg hdot hx hstop hedge ((hjs x').1 hmem)
    | none =>
      have hcomplete : i.isComplete = true := by
        rw [Item.isComplete, DottedRule.isActive_eq_false_iff.2 hdot]; rfl
      rw [hstop] at ht
      obtain rfl := Option.some.inj (ht.symm.trans hs)
      rw [if_pos hcomplete, Agenda.mem_requeue_iff, not_or] at hnot
      -- the place stands in the state once, so it is at the position that was improved
      obtain ⟨hlt, hget⟩ := List.getElem?_eq_some_iff.1 (Array.getElem?_toList ▸ hq)
      obtain ⟨hlt', hget'⟩ := List.getElem?_eq_some_iff.1 (Array.getElem?_toList ▸ hq')
      obtain rfl := (hvalid.nodup hs).getElem_inj_iff.1 (hget'.trans hget.symm)
      exact absurd ⟨_, hposition', hposition, hq⟩ hnot.2

/-- A turn keeps the agenda covering. -/
theorem Agenda.Covers.turn {a a' : Agenda} {place : Nat} {s s' : Array Nat} {i : Item W}
    (hr : Ranking P le) (hg : g.WeightsIn P) (hreach : Reachable g tokens c)
    (hcovers : a.Covers le g tokens c s) (hnext : a.next? s = some (place, a'))
    (hs : c.states[i.stop]? = some s) (hi : c.items[place]? = some i)
    (hadds : c.Adds js improved c') (hjs : ∀ j, j ∈ js ↔ Infers g tokens c place i j)
    (hreach' : Reachable g tokens c') (hs' : c'.states[i.stop]? = some s') :
    (a'.requeue s' (if i.isComplete then improved else [])).Covers le g tokens c' s' := by
  obtain ⟨-, hcursor, hrequeued, hsettled⟩ := hcovers.next hnext
  obtain ⟨t, ht, -⟩ := hadds.getElem?_states hs
  obtain rfl := Option.some.inj (hs'.symm.trans ht)
  refine ⟨?_, ?_, ?_⟩
  · rw [Array.size_append]
    exact Nat.le_add_right_of_le hcursor
  · intro q hq
    rcases Agenda.mem_requeue_iff.1 hq with hq | ⟨position, -, -, hq⟩
    · exact Array.mem_append_left _ (hrequeued hq)
    · exact Array.mem_of_getElem? hq
  · intro position q x' hposition hq hx' hnot
    replace hposition : position < a'.cursor := hposition
    have hqs : s[position]? = some q := by
      rwa [Array.getElem?_append_left (by omega)] at hq
    obtain ⟨x, hx, hxstop⟩ := hreach.exists_item hs (Array.mem_of_getElem? hqs)
    obtain ⟨x'', hx'', hedge, -⟩ := hadds.exists_same_edge hx
    obtain rfl := Option.some.inj (hx'.symm.trans hx'')
    have hstop : x'.stop = i.stop := (congrArg Edge.stop hedge).trans hxstop
    have hlater : ∀ j ∈ js, x'.stop ≤ j.stop := fun j hj => hstop ▸ ((hjs j).1 hj).stop_le
    have hle : le x'.weight x.weight := Agenda.le_of_not_mem_requeue hr hg hreach hreach'.valid
      hadds hjs hs' hx hxstop hx' hposition hq hnot
    -- whatever followed from the item that stood here stands in the chart by now
    have hold : ∀ {j : Item W}, Infers g tokens c q x j → c'.Holds le j.edge j.weight := by
      intro j hj
      by_cases hplace : q = place
      · subst hplace
        obtain rfl := Option.some.inj (hx.symm.trans hi)
        exact hreach.holds_infers hr hg hi hadds hjs hj
      · rw [Agenda.mem_requeue_iff, not_or] at hnot
        have hc := hreach.weights hr hg
        exact hreach.holds_turn hr hg hi hadds hjs (hj.weight hr hg hc (hc hx))
          (hsettled hposition hqs hplace hx hnot.1 hj)
    intro j hj
    exact hreach.settled_of_le hr hg hreach' hadds hlater hx hx' hedge hle hold hj

/-- Every item that stops before a position is settled. -/
def SettledBelow (le : W → W → Prop) (g : WeightedGrammar W) (tokens : List String) (k : Nat)
    (c : Chart W) : Prop :=
  ∀ ⦃place : Nat⦄ ⦃i : Item W⦄, c.items[place]? = some i → i.stop < k →
    Settled le g tokens c place i

/-- Working on a state leaves the earlier ones settled. -/
theorem SettledBelow.turn {place : Nat} {i : Item W} (hr : Ranking P le) (hg : g.WeightsIn P)
    (hreach : Reachable g tokens c) (hbelow : SettledBelow le g tokens i.stop c)
    (hi : c.items[place]? = some i) (hadds : c.Adds js improved c')
    (hjs : ∀ j, j ∈ js ↔ Infers g tokens c place i j) : SettledBelow le g tokens i.stop c' := by
  have hc := hreach.weights hr hg
  have hstops : ∀ j ∈ js, i.stop ≤ j.stop := fun j hj => ((hjs j).1 hj).stop_le
  intro q x hx hstop j hj
  rcases hadds.mem_or_mem hx with hx | hx
  · have hlater : ∀ j ∈ js, x.stop ≤ j.stop :=
      fun j hj => Nat.le_trans (Nat.le_of_lt hstop) (hstops j hj)
    have hinfers : Infers g tokens c q x j := hj.of_adds hadds hlater (hreach.proper hx)
    exact hreach.holds_turn hr hg hi hadds hjs (hinfers.weight hr hg hc (hc hx))
      (hbelow hx hstop hinfers)
  · exact absurd (hstops x hx) (Nat.not_le_of_lt hstop)

/-- Once the agenda is empty the state it covered is settled too. -/
theorem SettledBelow.succ {a : Agenda} {k : Nat} {s : Array Nat} (hreach : Reachable g tokens c)
    (hs : c.states[k]? = some s) (hbelow : SettledBelow le g tokens k c)
    (hcovers : a.Covers le g tokens c s) (hnext : a.next? s = none) :
    SettledBelow le g tokens (k + 1) c := by
  obtain ⟨hend, hempty⟩ := Agenda.next?_eq_none_iff.1 hnext
  intro place i hi hstop
  rcases Nat.lt_succ_iff_lt_or_eq.1 hstop with hlt | hk
  · exact hbelow hi hlt
  · obtain ⟨position, hposition, hplace⟩ :=
      Array.mem_iff_getElem.1 ((hreach.valid.mem_state_iff hs).2 ⟨i, hi, hk⟩)
    refine hcovers.settled (Nat.lt_of_lt_of_le hposition hend)
      (by rw [Array.getElem?_eq_getElem hposition, hplace]) hi ?_
    rw [hempty]
    exact List.not_mem_nil

/-! ## Filling the chart -/

/-- All that follows from any item stands in the chart, no lighter. -/
structure Saturated (P : W → Prop) (le : W → W → Prop) (g : WeightedGrammar W)
    (tokens : List String) (c : Chart W) : Prop where
  ranking : Ranking P le
  weightsIn : g.WeightsIn P
  proper : c.All Item.Proper
  weights : c.All fun i => P i.weight
  settled : ∀ ⦃place : Nat⦄ ⦃i : Item W⦄, c.items[place]? = some i →
    Settled le g tokens c place i

variable [DecidableLT W]

/-- Working on a state is cut off or settles it. -/
theorem work_saturated {k n : Nat} {a : Agenda} {s : Array Nat} (hr : Ranking P le)
    (hg : g.WeightsIn P) (hreach : Reachable g tokens c) (hs : c.states[k]? = some s)
    (hbelow : SettledBelow le g tokens k c) (hcovers : a.Covers le g tokens c s) :
    work g tokens k n a c = .error .outOfSteps ∨ ∃ c', work g tokens k n a c = .ok c' ∧
      Reachable g tokens c' ∧ SettledBelow le g tokens (k + 1) c' := by
  induction n generalizing a c s with
  | zero =>
    unfold work
    simp only [Chart.state_eq_ok_iff.2 hs, bind, Except.bind]
    cases hnext : a.next? s with
    | none => exact .inr ⟨c, rfl, hreach, hbelow.succ hreach hs hcovers hnext⟩
    | some _ => exact .inl rfl
  | succ n ih =>
    unfold work
    simp only [Chart.state_eq_ok_iff.2 hs, bind, Except.bind]
    cases hnext : a.next? s with
    | none => exact .inr ⟨c, rfl, hreach, hbelow.succ hreach hs hcovers hnext⟩
    | some next =>
      obtain ⟨place, a'⟩ := next
      obtain ⟨i, hi, rfl⟩ := hreach.exists_item hs (hcovers.next hnext).1
      obtain ⟨js, improved, c', hok, hadds, hjs, hreach'⟩ := hreach.process_ok hi
      obtain ⟨t, ht, -⟩ := hadds.getElem?_states hs
      simp only [hok, Chart.state_eq_ok_iff.2 ht]
      exact ih hreach' ht (hbelow.turn hr hg hreach hi hadds hjs)
        (hcovers.turn hr hg hreach hnext hs hi hadds hjs hreach' ht)

theorem foldlM_work_saturated (limit : Nat) (hr : Ranking P le) (hg : g.WeightsIn P) {k : Nat}
    (hk : k ≤ tokens.length + 1) :
    (List.range k).foldlM (fun c k => work g tokens k limit ⟨0, []⟩ c) (initialChart g tokens) =
        .error .outOfSteps ∨
      ∃ c, (List.range k).foldlM (fun c k => work g tokens k limit ⟨0, []⟩ c)
          (initialChart g tokens) = .ok c ∧
        Reachable g tokens c ∧ SettledBelow le g tokens k c := by
  induction k with
  | zero =>
    exact .inr ⟨_, rfl, .initial, fun _ _ _ h => absurd h (Nat.not_lt_zero _)⟩
  | succ k ih =>
    rw [List.range_succ, List.foldlM_append]
    rcases ih (by omega) with h | ⟨c, h, hreach, hbelow⟩
    · exact .inl (by rw [h]; rfl)
    · have hs := Array.getElem?_eq_getElem (show k < c.states.size by
        rw [hreach.size_states]; omega)
      simp only [h, List.foldlM_cons, List.foldlM_nil, bind_pure]
      exact work_saturated hr hg hreach hs hbelow (Agenda.covers_start c _)

/-- A chart is filled without fault unless it is cut off, and then it is saturated. -/
theorem fillChart_saturated (limit : Nat) (hr : Ranking P le) (hg : g.WeightsIn P) :
    fillChart limit g tokens = .error .outOfSteps ∨ ∃ c, fillChart limit g tokens = .ok c ∧
      Reachable g tokens c ∧ Saturated P le g tokens c := by
  refine (foldlM_work_saturated limit hr hg (Nat.le_refl _)).imp_right ?_
  rintro ⟨c, h, hreach, hbelow⟩
  refine ⟨c, h, hreach, hr, hg, hreach.proper, hreach.weights hr hg, ?_⟩
  intro place i hi
  exact hbelow hi (hreach.size_states ▸ hreach.valid.stop_lt hi)

end Earley

end TabularParsing
