import TabularParsing.Proofs.Earley.Alignment
import TabularParsing.Proofs.Earley.Turns

/-!
# Weights do not decide which items there are

Weights decide which items are replaced, and which are worked on again and when. None of that adds
an item: an item is worked on again only after its turn, and by then whatever follows from it stands
in the chart, if with other weights. So the edges of a chart come about while its states are worked
off for the first time, in an order that no weight has a part in.

## Main definitions

* `Agenda.Swept`: what follows from the items before the cursor stands in the chart.
* `Stage.AtEnd`: the cursor has passed all items of its state.

## Main statements

* `Turns.aligned_of_end`: working again on items adds no edge.
* `Turns.aligned`: two grammars that differ in weights work off a state alike.
* `Parse.same_items_of_reweighs`: their charts have the same items.
-/
namespace TabularParsing.Earley

variable {W : Type} [One W] [Mul W] [LT W]
variable {g g' : WeightedGrammar W} {tokens : List String} {k m n : Nat}

/-- What follows from an item before the cursor stands in the chart, requeued or not. Only such
items are requeued. -/
structure Agenda.Swept (g : WeightedGrammar W) (tokens : List String) (a : Agenda) (c : Chart W)
    (s : Array Nat) : Prop where
  cursor_le : a.cursor ≤ s.size
  before_cursor : ∀ {place : Nat}, place ∈ a.requeued →
    ∃ position < a.cursor, s[position]? = some place
  settled : ∀ {position place : Nat} {i : Item W}, position < a.cursor →
    s[position]? = some place → c.items[place]? = some i →
    Settled (fun _ _ => True) g tokens c place i

namespace Agenda.Swept

variable {a a' : Agenda} {c c' : Chart W} {s s' : Array Nat} {place : Nat} {i : Item W}
  {js : List (Item W)} {improved improved' : List Nat}

omit [One W] [LT W] in
theorem start (c : Chart W) (s : Array Nat) : Agenda.Swept g tokens ⟨0, []⟩ c s where
  cursor_le := Nat.zero_le _
  before_cursor h := absurd h List.not_mem_nil
  settled h := absurd h (Nat.not_lt_zero _)

omit [One W] [LT W] in
/-- The place whose turn it is stands before the cursor then, and so do those that are requeued. -/
theorem next (h : a.Swept g tokens c s) (hnext : a.next? s = some (place, a')) :
    (∃ position < a'.cursor, s[position]? = some place) ∧ a'.cursor ≤ s.size ∧
      (∀ {q : Nat}, q ∈ a'.requeued → ∃ position < a'.cursor, s[position]? = some q) ∧
      ∀ {position q : Nat} {i : Item W}, position < a'.cursor → s[position]? = some q →
        q ≠ place → c.items[q]? = some i → Settled (fun _ _ => True) g tokens c q i := by
  have hbefore {q : Nat} (hq : q ∈ a.requeued) := h.before_cursor hq
  rcases Agenda.next?_eq_some_iff.1 hnext with ⟨hplace, rfl⟩ | ⟨-, rest, hrest, rfl⟩
  · refine ⟨⟨_, Nat.lt_succ_self _, hplace⟩, (Array.getElem?_eq_some_iff.1 hplace).1, ?_, ?_⟩
    · intro q hq
      obtain ⟨position, hlt, hget⟩ := hbefore hq
      exact ⟨position, Nat.lt_succ_of_lt hlt, hget⟩
    · intro position q i hposition hq hne hi
      rcases Nat.lt_succ_iff_lt_or_eq.1 hposition with hlt | rfl
      · exact h.settled hlt hq hi
      · exact absurd (Option.some.inj (hq.symm.trans hplace)) hne
  · rw [hrest] at hbefore
    exact ⟨hbefore List.mem_cons_self, h.cursor_le,
      fun hq => hbefore (List.mem_cons_of_mem _ hq),
      fun hposition hq _ hi => h.settled hposition hq hi⟩

/-- A turn keeps what stands before the cursor settled. -/
theorem turn (h : a.Swept g tokens c s) (hreach : Reachable g tokens c)
    (hnext : a.next? s = some (place, a')) (hs : c.states[i.stop]? = some s)
    (hi : c.items[place]? = some i) (hadds : c.Adds js improved c')
    (hjs : ∀ j, j ∈ js ↔ Infers g tokens c place i j) (hreach' : Reachable g tokens c')
    (hs' : c'.states[i.stop]? = some s') : (a'.requeue s' improved').Swept g tokens c' s' := by
  obtain ⟨-, hcursor, hrequeued, hsettled⟩ := h.next hnext
  obtain ⟨t, ht, -⟩ := hadds.getElem?_states hs
  obtain rfl := Option.some.inj (hs'.symm.trans ht)
  have hget {position : Nat} (hlt : position < a'.cursor) :
      (s ++ t)[position]? = s[position]? := by
    rw [Array.getElem?_append_left (by omega)]
  refine ⟨?_, ?_, ?_⟩
  · rw [Array.size_append]
    exact Nat.le_add_right_of_le hcursor
  · intro q hq
    rcases Agenda.mem_requeue_iff.1 hq with hq | ⟨position, -, hlt, hq⟩
    · obtain ⟨position, hlt, hq⟩ := hrequeued hq
      exact ⟨position, hlt, (hget hlt).trans hq⟩
    · exact ⟨position, hlt, hq⟩
  · intro position q x' hposition hq hx'
    replace hposition : position < a'.cursor := hposition
    rw [hget hposition] at hq
    obtain ⟨x, hx, hxstop⟩ := hreach.exists_item hs (Array.mem_of_getElem? hq)
    obtain ⟨x'', hx'', hedge, -⟩ := hadds.exists_same_edge hx
    obtain rfl := Option.some.inj (hx'.symm.trans hx'')
    have hweights := WeightedGrammar.weightsIn_trivial g
    have hstop : x'.stop = i.stop := (congrArg Edge.stop hedge).trans hxstop
    have hlater : ∀ j ∈ js, x'.stop ≤ j.stop := fun j hj => hstop ▸ ((hjs j).1 hj).stop_le
    -- either the turn itself added what follows, or it stood in the chart before
    have hold : ∀ {j : Item W}, Infers g tokens c q x j →
        c'.Holds (fun _ _ => True) j.edge j.weight := by
      intro j hj
      by_cases hplace : q = place
      · subst hplace
        obtain rfl := Option.some.inj (hx.symm.trans hi)
        exact hreach.holds_infers ranking_trivial hweights hi hadds hjs hj
      · exact hreach.holds_turn ranking_trivial hweights hi hadds hjs trivial
          (hsettled hposition hq hplace hx hj)
    intro j hj
    exact hreach.settled_of_le ranking_trivial hweights hreach' hadds hlater hx hx' hedge trivial
      hold hj

end Agenda.Swept

/-- The stage can be reached, and what stands before its cursor was worked on. -/
structure Stage.Swept (g : WeightedGrammar W) (tokens : List String) (k : Nat) (σ : Stage W) :
    Prop where
  reachable : Reachable g tokens σ.chart
  agenda : ∀ {s : Array Nat}, σ.chart.states[k]? = some s →
    σ.agenda.Swept g tokens σ.chart s

omit [Mul W] [LT W] [One W] in
/-- The cursor has come to the end of its state. -/
def Stage.AtEnd (k : Nat) (σ : Stage W) : Prop :=
  ∀ {s : Array Nat}, σ.chart.states[k]? = some s → s.size ≤ σ.agenda.cursor

theorem Stage.swept_start {c : Chart W} (hreach : Reachable g tokens c) :
    (Stage.start c).Swept g tokens k :=
  ⟨hreach, fun _ => .start _ _⟩

variable [DecidableLT W] {σ τ : Stage W} {σ' τ' : Stage W}

/-- The item that a turn works on, and what it adds. -/
theorem Turn.exists_adds (h : Turn g tokens k σ τ) (hσ : σ.Swept g tokens k) :
    ∃ (s : Array Nat) (place : Nat) (a' : Agenda) (i : Item W) (js : List (Item W))
      (improved : List Nat), σ.chart.states[k]? = some s ∧
      σ.agenda.next? s = some (place, a') ∧ τ.agenda.cursor = a'.cursor ∧
      σ.chart.items[place]? = some i ∧ σ.chart.Adds js improved τ.chart ∧
      (∀ j, j ∈ js ↔ Infers g tokens σ.chart place i j) ∧ τ.Swept g tokens k := by
  obtain ⟨hs, hnext, hprocess, hs'⟩ := h
  rw [Chart.state_eq_ok_iff] at hs hs'
  have hswept := hσ.agenda hs
  obtain ⟨⟨position, -, hplace⟩, -⟩ := hswept.next hnext
  obtain ⟨i, hi, rfl⟩ := hσ.reachable.exists_item hs (Array.mem_of_getElem? hplace)
  obtain ⟨js, improved, c', hok, hadds, hjs, hreach'⟩ := hσ.reachable.process_ok hi
  obtain ⟨rfl, rfl⟩ := Prod.mk.inj (Except.ok.inj (hok.symm.trans hprocess))
  refine ⟨_, _, _, i, js, improved, hs, hnext, rfl, hi, hadds, hjs, hreach', fun ht => ?_⟩
  obtain rfl := Option.some.inj (hs'.symm.trans ht)
  exact hswept.turn hσ.reachable hnext hs hi hadds hjs hreach' hs'

theorem Turn.swept (h : Turn g tokens k σ τ) (hσ : σ.Swept g tokens k) : τ.Swept g tokens k := by
  obtain ⟨s, place, a', i, js, improved, -, -, -, -, -, -, hswept⟩ := h.exists_adds hσ
  exact hswept

theorem Turns.swept (h : Turns g tokens k n σ τ) (hσ : σ.Swept g tokens k) :
    τ.Swept g tokens k := by
  induction h with
  | none => exact hσ
  | next hturn _ ih => exact ih (hturn.swept hσ)

/-- Behind the end of its state an agenda only works again on items, and all that follows from them
stands in the chart. -/
theorem Turn.aligned_of_end (h : Turn g tokens k σ τ) (hσ : σ.Swept g tokens k)
    (hend : σ.AtEnd k) : σ.chart.Aligned τ.chart ∧ τ.AtEnd k := by
  obtain ⟨s, place, a', i, js, improved, hs, hnext, hcursor, hi, hadds, hjs, -⟩ :=
    h.exists_adds hσ
  have hswept := hσ.agenda hs
  rcases Agenda.next?_eq_some_iff.1 hnext with ⟨hplace, -⟩ | ⟨-, rest, hrest, rfl⟩
  · have hlt := (Array.getElem?_eq_some_iff.1 hplace).1
    exact absurd (hend hs) (Nat.not_le_of_lt hlt)
  · obtain ⟨position, hlt, hplace⟩ := hswept.before_cursor (hrest ▸ List.mem_cons_self)
    have haligned : σ.chart.Aligned τ.chart := hadds.aligned fun j hj => by
      obtain ⟨q, x, hx, hedge, -⟩ := hswept.settled hlt hplace hi ((hjs j).1 hj)
      exact ⟨q, x, hx, hedge⟩
    refine ⟨haligned, fun {t} ht => ?_⟩
    rw [hcursor]
    exact hend (haligned.states ▸ ht)

theorem Turns.aligned_of_end (h : Turns g tokens k n σ τ) (hσ : σ.Swept g tokens k)
    (hend : σ.AtEnd k) : σ.chart.Aligned τ.chart := by
  induction h with
  | none => exact .refl _
  | next hturn _ ih =>
    obtain ⟨haligned, hend'⟩ := hturn.aligned_of_end hσ hend
    exact haligned.trans (ih (hturn.swept hσ) hend')

omit [One W] in
/-- Before the end of its state an agenda takes the place at the cursor, whatever is requeued. -/
theorem Turn.aligned (hg : g.Reweighs g') (h : Turn g tokens k σ τ) (h' : Turn g' tokens k σ' τ')
    (hcursor : σ.agenda.cursor = σ'.agenda.cursor) (hchart : σ.chart.Aligned σ'.chart)
    (hbefore : ¬σ.AtEnd k) :
    τ.chart.Aligned τ'.chart ∧ τ.agenda.cursor = τ'.agenda.cursor := by
  obtain ⟨hs, hnext, hprocess, -⟩ := h
  obtain ⟨hs', hnext', hprocess', -⟩ := h'
  rw [Chart.state_eq_ok_iff] at hs hs'
  have hsame := Option.some.inj ((hchart.states ▸ hs).symm.trans hs')
  subst hsame
  rcases Agenda.next?_eq_some_iff.1 hnext with ⟨hplace, rfl⟩ | ⟨hnone, -⟩
  · rcases Agenda.next?_eq_some_iff.1 hnext' with ⟨hplace', rfl⟩ | ⟨hnone', -⟩
    · simp only at hcursor
      rw [hcursor, hplace'] at hplace
      obtain rfl := Option.some.inj hplace
      exact ⟨hchart.process hg hprocess hprocess', congrArg (· + 1) hcursor⟩
    · simp only at hcursor
      rw [hcursor, hnone'] at hplace
      cases hplace
  · refine absurd (fun {t} ht => ?_) hbefore
    obtain rfl := Option.some.inj (hs.symm.trans ht)
    exact Array.getElem?_eq_none_iff.1 hnone

omit [One W] [Mul W] [LT W] [DecidableLT W] in
theorem Stage.Idle.atEnd (h : σ.Idle k) : σ.AtEnd k := by
  obtain ⟨s, hs, hnext⟩ := h
  intro t ht
  rw [Chart.state_eq_ok_iff] at hs
  obtain rfl := Option.some.inj (hs.symm.trans ht)
  exact (Agenda.next?_eq_none_iff.1 hnext).1

/-- Two grammars that differ in their weights work off a state alike, each in turns of its own. -/
theorem Turns.aligned (hg : g.Reweighs g') (h : Turns g tokens k n σ τ)
    (h' : Turns g' tokens k m σ' τ') (hidle : τ.Idle k) (hidle' : τ'.Idle k)
    (hσ : σ.Swept g tokens k) (hσ' : σ'.Swept g' tokens k)
    (hcursor : σ.agenda.cursor = σ'.agenda.cursor) (hchart : σ.chart.Aligned σ'.chart) :
    τ.chart.Aligned τ'.chart := by
  induction h generalizing m σ' with
  | @none σ =>
    have hend' : σ'.AtEnd k := fun {s} hs => by
      rw [← hcursor]
      exact hidle.atEnd (hchart.states ▸ hs)
    exact hchart.trans (h'.aligned_of_end hσ' hend')
  | @next n σ σ₁ τ hturn hrest ih =>
    -- up to the end the turns pair up, behind it each run is on its own
    by_cases hend : σ.AtEnd k
    · have hend' : σ'.AtEnd k := fun {s} hs => by
        rw [← hcursor]
        exact hend (hchart.states ▸ hs)
      exact ((Turns.next hturn hrest).aligned_of_end hσ hend).symm.trans
        (hchart.trans (h'.aligned_of_end hσ' hend'))
    · cases h' with
      | none =>
        refine absurd (fun {s} hs => ?_) hend
        rw [hcursor]
        exact hidle'.atEnd (hchart.states ▸ hs)
      | next hturn' hrest' =>
        obtain ⟨hchart₁, hcursor₁⟩ := hturn.aligned hg hturn' hcursor hchart hend
        exact ih hrest' hidle (hturn.swept hσ) (hturn'.swept hσ') hcursor₁ hchart₁

/-! ## State by state -/

/-- The states were worked off by turns, so the chart can be reached, whatever the weights. -/
theorem reachable_of_filled {c : Chart W} (h : Filled g tokens k c) : Reachable g tokens c := by
  induction h with
  | initial => exact .initial
  | state _ hturns _ ih => exact (hturns.swept (Stage.swept_start ih)).reachable

omit [Mul W] [LT W] [DecidableLT W] in
theorem aligned_initialChart (hg : g.Reweighs g') (tokens : List String) :
    (initialChart g tokens).Aligned (initialChart g' tokens) := by
  refine (Chart.Aligned.refl _).push 0 ?_
  simp only [Item.edge, Item.symbol, DottedRule.ofRule, hg.start]

theorem Filled.aligned (hg : g.Reweighs g') {c c' : Chart W} (h : Filled g tokens k c)
    (h' : Filled g' tokens k c') : c.Aligned c' := by
  induction h generalizing c' with
  | initial =>
    cases h'
    exact aligned_initialChart hg tokens
  | state hfilled hturns hidle ih =>
    cases h' with
    | state hfilled' hturns' hidle' =>
      exact hturns.aligned hg hturns' hidle hidle' (Stage.swept_start (reachable_of_filled hfilled))
        (Stage.swept_start (reachable_of_filled hfilled')) rfl (ih hfilled')

namespace Parse

omit [One W] [Mul W] [LT W] [DecidableLT W] in
/-- Whether an item is a goal is a matter of its edge. -/
theorem isGoal_eq {i i' : Item W} (hedge : i.edge = i'.edge) : isGoal i = isGoal i' := by
  have hgoal : i.forGoal = i'.forGoal := congrArg Edge.forGoal hedge
  have horigin : i.origin = i'.origin := congrArg Edge.origin hedge
  have hdot : i.dotted.dot = i'.dotted.dot := congrArg Edge.dot hedge
  have hproductions : i.dotted.rule.productions = i'.dotted.rule.productions :=
    congrArg Edge.productions hedge
  simp only [isGoal, Item.isComplete, DottedRule.isActive, hgoal, horigin, hdot, hproductions]

omit [One W] [Mul W] [LT W] [DecidableLT W] in
theorem goals_eq {p p' : Parse W} (hlength : p.length = p'.length)
    (hchart : p.chart.Aligned p'.chart) : p.goals = p'.goals := by
  have hgoal (place : Nat) :
      (p.chart.items[place]?.any isGoal) = p'.chart.items[place]?.any isGoal := by
    have hedge := hchart.edge? place
    unfold Chart.edge? at hedge
    cases hi : p.chart.items[place]? <;> cases hi' : p'.chart.items[place]? <;>
      simp only [hi, hi', Option.map_none, Option.map_some, reduceCtorEq, Option.some.injEq]
        at hedge
    · rfl
    · exact isGoal_eq hedge
  rw [goals, goals, hlength, hchart.states]
  exact congrArg (List.filter · _) (funext hgoal)

/-- Two grammars that differ in their weights only have the same items in the same places and
states of their charts, if both parses end. So they accept the same sentences. -/
theorem same_items_of_reweighs (hg : g.Reweighs g') {limit limit' : Nat}
    (hends : ofTokens limit g tokens ≠ .error .outOfSteps)
    (hends' : ofTokens limit' g' tokens ≠ .error .outOfSteps) :
    ∃ p p', ofTokens limit g tokens = .ok p ∧ ofTokens limit' g' tokens = .ok p' ∧
      p.chart.items.size = p'.chart.items.size ∧ p.chart.states = p'.chart.states ∧
      (∀ (place : Nat) (i i' : Item W), p.chart.items[place]? = some i →
        p'.chart.items[place]? = some i' → i.sameEdge i' = true ∧ i.forGoal = i'.forGoal) ∧
      p.accepts = p'.accepts := by
  have hfilled {g : WeightedGrammar W} {limit : Nat}
      (hends : ofTokens limit g tokens ≠ .error .outOfSteps) :
      ∃ c, ofTokens limit g tokens = .ok ⟨g, tokens.length, c⟩ ∧
        Filled g tokens (tokens.length + 1) c := by
    rcases fillChart_saturated limit ranking_trivial (WeightedGrammar.weightsIn_trivial g) with
      h | ⟨c, h, -⟩
    · exact absurd (by rw [ofTokens, h]; rfl) hends
    · exact ⟨c, by rw [ofTokens, h]; rfl, filled_of_foldlM_work h⟩
  obtain ⟨c, hok, hc⟩ := hfilled hends
  obtain ⟨c', hok', hc'⟩ := hfilled hends'
  have hchart : c.Aligned c' := hc.aligned hg hc'
  refine ⟨_, _, hok, hok', hchart.size_items, hchart.states, ?_, ?_⟩
  · intro place i i' hi hi'
    have hmerges := Item.merges_iff.2 (hchart.edge_eq hi hi')
    rwa [Item.merges, Bool.and_eq_true, beq_iff_eq] at hmerges
  · have hgoals : goals ⟨g, tokens.length, c⟩ = goals ⟨g', tokens.length, c'⟩ :=
      goals_eq rfl hchart
    rw [accepts, accepts, hgoals]

/-- A sentence with two derivations, one by a category that is found at once and one by a longer
way. The numbers weigh the two. -/
def detour (near far : Nat) : WeightedGrammar Nat :=
  ((((((WeightedGrammar.empty "S").addFilled
    ⟨"S", [.nonterminal "X"], 1⟩ (List.cons_ne_nil _ _)).addFilled
    ⟨"X", [.nonterminal "A", .terminal "y"], 1⟩ (List.cons_ne_nil _ _)).addFilled
    ⟨"X", [.nonterminal "B"], 1⟩ (List.cons_ne_nil _ _)).addFilled
    ⟨"B", [.nonterminal "C"], 1⟩ (List.cons_ne_nil _ _)).addFilled
    ⟨"C", [.terminal "x", .terminal "y"], far⟩ (List.cons_ne_nil _ _)).listWord "A" "x" near

/-- Where the longer way is the heavier one, what was built on the other is worked on again. -/
theorem same_items_of_reweighs_detour :
    (detour 5 1).Reweighs (detour 1 5) ∧
    ofTokens 6 (detour 5 1) ["x", "y"] ≠ .error .outOfSteps ∧
    ofTokens 8 (detour 1 5) ["x", "y"] ≠ .error .outOfSteps ∧
    ∃ p p', ofTokens 6 (detour 5 1) ["x", "y"] = .ok p ∧
      ofTokens 8 (detour 1 5) ["x", "y"] = .ok p' ∧
      p.chart.items.size = p'.chart.items.size ∧ p.chart.states = p'.chart.states ∧
      (∀ (place : Nat) (i i' : Item Nat), p.chart.items[place]? = some i →
        p'.chart.items[place]? = some i' → i.sameEdge i' = true ∧ i.forGoal = i'.forGoal) ∧
      p.accepts = p'.accepts := by
  have hg : (detour 5 1).Reweighs (detour 1 5) := by
    refine WeightedGrammar.Reweighs.listWord ?_ _ _ _ _
    repeat' refine WeightedGrammar.Reweighs.addFilled ?_ (by decide +kernel) _ _
    exact .refl _
  have hok : (ofTokens 6 (detour 5 1) ["x", "y"]).isOk = true := by decide +kernel
  have hok' : (ofTokens 8 (detour 1 5) ["x", "y"]).isOk = true := by decide +kernel
  have hends : ofTokens 6 (detour 5 1) ["x", "y"] ≠ .error .outOfSteps := by
    intro h
    rw [h] at hok
    cases hok
  have hends' : ofTokens 8 (detour 1 5) ["x", "y"] ≠ .error .outOfSteps := by
    intro h
    rw [h] at hok'
    cases hok'
  exact ⟨hg, hends, hends', same_items_of_reweighs hg hends hends'⟩

end Parse

end TabularParsing.Earley
