import TabularParsing.Proofs.Earley.Saturation
import TabularParsing.Proofs.Segment

/-!
# No derivation is missed

In a saturated chart the dot of an item that waits for a production has moved over every derivation
of it, and the item that it moved to is no lighter than the derivation makes it.

## Main definitions

* `Passes`: the dot of whatever waits for a production moves over words.
* `Finishes`: the dot of whatever waits for the last productions of its rule moves to the end.

## Main statement

* `Saturated.holds_completed_goal`
-/
namespace TabularParsing

variable {W : Type}

namespace Earley

/-- The edge with its dot at the end of its rule. -/
def Edge.finish (e : Edge) (stop : Nat) : Edge :=
  { e with dot := e.productions.length, stop := stop }

theorem Edge.next?_finish (e : Edge) (stop : Nat) : (e.finish stop).next? = none := by
  simp [finish, next?]

theorem DottedRule.next?_of_drop {d : DottedRule W} {p : Production} {ps : List Production}
    (h : d.rule.productions.drop d.dot = p :: ps) : d.next? = some p := by
  rw [next?, ← List.head?_drop, h, List.head?_cons]

/-- Behind the dot of an item that was moved over a production stand the productions after it. -/
theorem Chart.Holds.exists_advanced {le : W → W → Prop} {c : Chart W} {i : Item W} {stop : Nat}
    {x : W} {p : Production} {ps : List Production}
    (hdrop : i.dotted.rule.productions.drop i.dotted.dot = p :: ps)
    (h : c.Holds le (i.edge.advance stop) x) :
    ∃ (q : Nat) (j : Item W), c.items[q]? = some j ∧
      j.dotted.rule.productions.drop j.dotted.dot = ps ∧ j.stop = stop ∧ le x j.weight ∧
      ∀ k, j.edge.finish k = i.edge.finish k := by
  obtain ⟨q, j, hj, hedge, hle⟩ := h
  have hproductions : j.dotted.rule.productions = i.dotted.rule.productions :=
    congrArg Edge.productions hedge
  have hdot : j.dotted.dot = i.dotted.dot + 1 := congrArg Edge.dot hedge
  refine ⟨q, j, hj, ?_, congrArg Edge.stop hedge, hle, fun k => ?_⟩
  · rw [hproductions, hdot, ← List.tail_drop, hdrop, List.tail_cons]
  · rw [hedge]
    rfl

variable [Mul W] {g : WeightedGrammar W}

/-- The dot of whatever waits for a production moves over these words. -/
def Passes (le : W → W → Prop) (tokens : List String) (c : Chart W) (p : Production)
    (ws : List String) (y : Option W) : Prop :=
  ∀ ⦃place : Nat⦄ ⦃i : Item W⦄ ⦃k : Nat⦄, c.items[place]? = some i → i.dotted.next? = some p →
    i.stop ≤ k → k ≤ tokens.length → ws = segment tokens i.stop k →
    c.Holds le (i.edge.advance k) (times y i.weight)

/-- The dot of whatever waits for the last productions of its rule moves over these words to the
end, if it weighs enough. -/
def Finishes (P : W → Prop) (le : W → W → Prop) (tokens : List String) (c : Chart W) (w : W)
    (ps : List Production) (ws : List String) (x : W) : Prop :=
  ∀ ⦃place : Nat⦄ ⦃i : Item W⦄ ⦃k : Nat⦄, c.items[place]? = some i →
    i.dotted.rule.productions.drop i.dotted.dot = ps → i.stop ≤ k → k ≤ tokens.length →
    ws = segment tokens i.stop k → P w → le w i.weight → c.Holds le (i.edge.finish k) x

variable [One W] [LT W] {P : W → Prop} {le : W → W → Prop} {tokens : List String} {c : Chart W}

/-- The goal item never leaves the chart. -/
theorem Reachable.holds_goal (hr : Ranking P le) (hg : g.WeightsIn P)
    (h : Reachable g tokens c) : c.Holds le (Item.goal g).edge 1 := by
  induction h with
  | initial =>
    exact ⟨0, .goal g, getElem?_items_initialChart.2 ⟨rfl, rfl⟩, rfl, hr.refl hr.one⟩
  | turn hreach hi hadds hjs ih => exact hreach.holds_turn hr hg hi hadds hjs hr.one ih

namespace Saturated

/-- The dot of a waiting item moves over a completed item that the chart holds. -/
theorem holds_advance (h : Saturated P le g tokens c) {place : Nat} {i : Item W}
    {p : Production} {e : Edge} {y : W} (hi : c.items[place]? = some i)
    (hnext : i.dotted.next? = some p) (hy : P y) (hend : e.next? = none)
    (hgoal : e.forGoal = false) (horigin : e.origin = i.stop) (hsymbol : e.symbol = p.symbol)
    (he : c.Holds le e y) : c.Holds le (i.edge.advance e.stop) (y * i.weight) := by
  obtain ⟨q, j, hj, rfl, hle⟩ := he
  have hwi := h.weights hi
  have hwj := h.weights hj
  refine (h.settled hj (.completed hend hgoal hi horigin.symm hnext hsymbol.symm)).trans h.ranking
    h.weights (h.ranking.mul hy hwi) (h.ranking.mul hwj hwi) ?_
  exact h.ranking.mul_le_mul hy hwj hwi hwi hle (h.ranking.refl hwi)

theorem finishes_nil (h : Saturated P le g tokens c) (w : W) :
    Finishes P le tokens c w [] [] w := by
  intro place i k hi hdrop hik hk hws hw hle
  have hlen := length_segment (i := i.stop) hk
  rw [← hws, List.length_nil] at hlen
  obtain rfl : k = i.stop := by omega
  have hdot : i.dotted.dot = i.dotted.rule.productions.length :=
    Nat.le_antisymm (h.proper hi).dot_le (List.drop_eq_nil_iff.1 hdrop)
  refine ⟨place, i, hi, ?_, hle⟩
  simp only [Item.edge, Edge.finish, hdot]

theorem finishes_cons (h : Saturated P le g tokens c) {p : Production} {ps : List Production}
    {us vs : List String} {y : Option W} {w x : W} (hy : ∀ z ∈ y, P z)
    (hp : Passes le tokens c p us y) (hps : Finishes P le tokens c (times y w) ps vs x) :
    Finishes P le tokens c w (p :: ps) (us ++ vs) x := by
  intro place i k hi hdrop hik hk hws hw hle
  obtain ⟨m, him, hmk, hus, hvs⟩ := exists_cut hik hk hws
  obtain ⟨q, j, hj, hdrop', hstop, hle', hfinish⟩ :=
    (hp hi (DottedRule.next?_of_drop hdrop) him (Nat.le_trans hmk hk) hus).exists_advanced hdrop
  have hwi := h.weights hi
  rw [← hfinish]
  refine hps hj hdrop' (hstop ▸ hmk) hk (hstop ▸ hvs) (h.ranking.times hy hw) ?_
  exact h.ranking.trans (h.ranking.times hy hw) (h.ranking.times hy hwi) (h.weights hj)
    (h.ranking.times_le_times hy hw hwi hle) hle'

mutual

theorem passes_of_weighs (h : Saturated P le g tokens c) {p : Production} {ws : List String}
    {y : Option W} : g.Weighs p ws y → Passes le tokens c p ws y
  | .listed hw => by
    intro place i k hi hnext _ hk hws
    obtain ⟨rfl, hword⟩ := getElem?_of_segment_eq hk hws.symm
    exact h.holds_advance hi hnext (h.weightsIn.words hw) rfl rfl rfl rfl
      (h.settled hi (.listed hnext hword hw))
  | .literal hcategory => by
    intro place i k hi hnext _ hk hws
    obtain ⟨rfl, hword⟩ := getElem?_of_segment_eq hk hws.symm
    exact h.settled hi (.literal hnext rfl hcategory hword)
  | .alternative hcategory hrule hall => by
    intro place i k hi hnext hik hk hws
    obtain ⟨q, j, hj, hedge, hle⟩ := h.settled hi (.predicted hnext rfl hcategory hrule)
    have hstop : j.stop = i.stop := congrArg Edge.stop hedge
    have hdot : j.dotted.dot = 0 := congrArg Edge.dot hedge
    have hproductions := congrArg Edge.productions hedge
    have hend := finishes_of_weighsAll h hall hj (by rw [hdot, List.drop_zero]; exact hproductions)
      (hstop ▸ hik) hk (hstop ▸ hws) (h.weightsIn.rules hrule) hle
    have hw :=
      h.weightsIn.of_weighsAll h.ranking.mul hall (h.weightsIn.rules hrule)
    rw [hedge, Item.edge_predicted _ hrule] at hend
    exact h.holds_advance hi hnext hw (Edge.next?_finish _ _) rfl rfl rfl hend

theorem finishes_of_weighsAll (h : Saturated P le g tokens c) {ps : List Production}
    {ws : List String} {w x : W} : g.WeighsAll w ps ws x → Finishes P le tokens c w ps ws x
  | .nil => h.finishes_nil _
  | .skip hp hps =>
    h.finishes_cons (fun _ hz => by cases hz) (passes_of_weighs h hp) (finishes_of_weighsAll h hps)
  | .cons hp hps =>
    h.finishes_cons (h.weightsIn.of_weighs h.ranking.mul hp) (passes_of_weighs h hp)
      (finishes_of_weighsAll h hps)

end

/-- The goal rule is completed over a whole sentence that the start symbol derives, and weighs no
less than the derivation. -/
theorem holds_completed_goal (h : Saturated P le g tokens c) (hreach : Reachable g tokens c)
    {y : Option W} (hy : g.Weighs (.ofSymbol g.start) tokens y) :
    c.Holds le ((Item.goal g).edge.finish tokens.length) (times y 1) := by
  obtain ⟨place, i, hi, hedge, hle⟩ := hreach.holds_goal h.ranking h.weightsIn
  have hnext : i.dotted.next? = some (.ofSymbol g.start) := congrArg Edge.next? hedge
  have hstop : i.stop = 0 := congrArg Edge.stop hedge
  have hpass := passes_of_weighs h hy hi hnext (hstop ▸ Nat.zero_le _) (Nat.le_refl _)
    (by rw [hstop, segment_full])
  rw [hedge] at hpass
  have hweight := h.weightsIn.of_weighs h.ranking.mul hy
  exact hpass.trans h.ranking h.weights (h.ranking.times hweight h.ranking.one)
    (h.ranking.times hweight (h.weights hi))
    (h.ranking.times_le_times hweight h.ranking.one (h.weights hi) hle)

end Saturated

end Earley

end TabularParsing
