import TabularParsing.Proofs.Earley.Completeness
import TabularParsing.Proofs.Earley.Tiling

/-!
# Weights are products

An item weighs what its rule and its children weighed when it was put where it stands. Children
that improve afterwards make the product of the rule and the children larger than that. Then the
item is derived anew and replaced, so in a finished chart the product is no larger either: the dot
of the item that started the rule has moved over what the children are by now.

## Main definitions

* `Chart.product`: the weights of the items at some places, multiplied one after the other.
* `Chart.Bounds`: an item weighs no more than its rule and its children make it.
* `Chart.Starts`: the item stands in the chart with which a rule was started.

## Main statements

* `Reachable.bounds`: no item is heavier than its rule and its children make it.
* `Saturated.product_le`: in a finished chart a completed item is no lighter, whichever alternative
  with its productions it is for.
-/
namespace TabularParsing.Earley

variable {W : Type} [Mul W]

/-! ## Products of children -/

namespace Chart

/-- The weights of the items at some places, multiplied one after the other onto a first factor. -/
def product (c : Chart W) (w : W) (places : List Nat) : W :=
  places.foldl (fun x q => times (c.items[q]?.map Item.weight) x) w

variable {c c' : Chart W} {w : W} {places : List Nat}

@[simp] theorem product_nil : c.product w [] = w := rfl

theorem product_cons {q : Nat} {child : Item W} (hq : c.items[q]? = some child) :
    c.product w (q :: places) = c.product (child.weight * w) places := by
  rw [product, List.foldl_cons, hq]
  rfl

theorem product_snoc {q : Nat} {child : Item W} (hq : c.items[q]? = some child) :
    c.product w (places ++ [q]) = child.weight * c.product w places := by
  rw [product, List.foldl_append, List.foldl_cons, List.foldl_nil, hq]
  rfl

/-- An item weighs no more than its rule and its children, which stand in the chart, make it. -/
structure Bounds [Zero W] [One W] [LE W] (c : Chart W) (i : Item W) : Prop where
  rule : InUnit i.dotted.rule.weight
  children : ∀ q ∈ i.children, ∃ child, c.items[q]? = some child
  le : i.weight ≤ c.product i.dotted.rule.weight i.children

end Chart

section Unit

variable [Zero W] [One W] [LE W] [LT W] {c c' : Chart W} {w : W} {places : List Nat}
variable (hu : UnitProducts W)

namespace Chart

include hu

theorem inUnit_product (hc : c.All fun i => InUnit i.weight) (hw : InUnit w) :
    InUnit (c.product w places) := by
  induction places generalizing w with
  | nil => exact hw
  | cons q places ih =>
    rw [product, List.foldl_cons]
    refine ih (hu.ranking.times (fun z hz => ?_) hw)
    obtain ⟨i, hi, rfl⟩ := Option.map_eq_some_iff.1 hz
    exact hc hi

/-- Where the children are no lighter the product is no smaller. -/
theorem product_le_product {x : W} (hplaces : ∀ q ∈ places, ∃ i i', c.items[q]? = some i ∧
      c'.items[q]? = some i' ∧ InUnit i.weight ∧ InUnit i'.weight ∧ i.weight ≤ i'.weight)
    (hw : InUnit w) (hx : InUnit x) (hle : w ≤ x) : c.product w places ≤ c'.product x places := by
  induction places generalizing w x with
  | nil => exact hle
  | cons q places ih =>
    obtain ⟨i, i', hi, hi', hwi, hwi', hii'⟩ := hplaces q List.mem_cons_self
    rw [product_cons hi, product_cons hi']
    exact ih (fun p hp => hplaces p (List.mem_cons_of_mem _ hp)) (hu.inUnit_mul hwi hw)
      (hu.inUnit_mul hwi' hx) (hu.mul_le_mul hwi hwi' hw hx hii' hle)

/-- An item that is bounded by its rule and its children stays so, for children only improve. -/
theorem Bounds.added {i j : Item W} {insertion : Insertion} (hc : c.All fun i => InUnit i.weight)
    (hj : InUnit j.weight) (hadd : c.Added j insertion c') (hi : InUnit i.weight)
    (h : c.Bounds i) : c'.Bounds i where
  rule := h.rule
  children q hq := by
    obtain ⟨child, hchild⟩ := h.children q hq
    rcases hadd.kept_or_replaced hchild with hsame | ⟨hnew, -⟩
    · exact ⟨child, hsame⟩
    · exact ⟨j, hnew⟩
  le := by
    have hgrows : c.product i.dotted.rule.weight i.children ≤
        c'.product i.dotted.rule.weight i.children := by
      refine product_le_product hu (fun q hq => ?_) h.rule h.rule (hu.total.refl h.rule)
      obtain ⟨child, hchild⟩ := h.children q hq
      have hwc := hc hchild
      rcases hadd.kept_or_replaced hchild with hsame | ⟨hnew, -, hlt, -⟩
      · exact ⟨child, child, hchild, hsame, hwc, hwc, hu.total.refl hwc⟩
      · exact ⟨child, j, hchild, hnew, hwc, hj, hu.total.le_of_lt hwc hj hlt⟩
    exact hu.total.trans hi (inUnit_product hu hc h.rule)
      (inUnit_product hu (hadd.all hc hj) h.rule) h.le hgrows

/-- An item that is bounded by its rule and its children is so by any heavier rule. -/
theorem Bounds.le_product {i : Item W} (hc : c.All fun i => InUnit i.weight) (hi : InUnit i.weight)
    (h : c.Bounds i) (hw : InUnit w) (hle : i.dotted.rule.weight ≤ w) :
    i.weight ≤ c.product w i.children := by
  refine hu.total.trans hi (inUnit_product hu hc h.rule) (inUnit_product hu hc hw) h.le ?_
  refine product_le_product hu (fun q hq => ?_) h.rule hw hle
  obtain ⟨child, hchild⟩ := h.children q hq
  exact ⟨child, child, hchild, hchild, hc hchild, hc hchild, hu.total.refl (hc hchild)⟩

theorem Adds.bounds {js : List (Item W)} {improved : List Nat}
    (hc : c.All fun i => InUnit i.weight) (hjs : ∀ j ∈ js, InUnit j.weight)
    (h : c.All c.Bounds) (hbounds : ∀ j ∈ js, c.Bounds j) (hadds : c.Adds js improved c') :
    c'.All c'.Bounds := by
  induction hadds with
  | nil => exact h
  | @cons c c' c'' j insertion js improved hadd _ ih =>
    have hj := hjs j List.mem_cons_self
    have hrest : ∀ x ∈ js, InUnit x.weight := fun x hx => hjs x (List.mem_cons_of_mem _ hx)
    refine ih (hadd.all hc hj) hrest ?_ fun x hx => ?_
    · intro place i hi
      rcases hadd.eq_or_eq hi with hi | rfl
      · exact (h hi).added hu hc hj hadd (hc hi)
      · exact (hbounds i List.mem_cons_self).added hu hc hj hadd hj
    · exact (hbounds x (List.mem_cons_of_mem _ hx)).added hu hc hj hadd (hrest x hx)

end Chart

variable {g : WeightedGrammar W} {tokens : List String}

include hu

theorem Infers.bounds (hg : g.WeightsIn fun w => InUnit w) (hc : c.All fun i => InUnit i.weight)
    (hbounds : c.All c.Bounds) {place : Nat} {i j : Item W} (hi : c.items[place]? = some i)
    (h : Infers g tokens c place i j) : c.Bounds j := by
  cases h with
  | predicted _ _ _ hrule =>
    exact ⟨hg.rules hrule, fun q hq => (by cases hq), hu.total.refl (hg.rules hrule)⟩
  | listed _ _ hw => exact ⟨hg.words hw, fun q hq => (by cases hq), hu.total.refl (hg.words hw)⟩
  | literal => exact ⟨(hbounds hi).rule, (hbounds hi).children, (hbounds hi).le⟩
  | @completed q waiting p _ _ hw _ _ _ =>
    have hwaiting := hbounds hw
    refine ⟨hwaiting.rule, fun q hq => ?_, ?_⟩
    · rcases List.mem_append.1 hq with hq | hq
      · exact hwaiting.children q hq
      · exact ⟨i, List.mem_singleton.1 hq ▸ hi⟩
    · simp only [Item.overItem, DottedRule.advance, Chart.product_snoc hi]
      exact hu.mul_le_mul (hc hi) (hc hi) (hc hw) (Chart.inUnit_product hu hc hwaiting.rule)
        (hu.total.refl (hc hi)) hwaiting.le

/-- No item of a reachable chart is heavier than its rule and its children make it. -/
theorem Reachable.bounds (hg : g.WeightsIn fun w => InUnit w) (h : Reachable g tokens c) :
    c.All c.Bounds := by
  induction h with
  | initial =>
    intro p i hi
    rw [(getElem?_items_initialChart.1 hi).2]
    exact ⟨hu.inUnit_one, fun q hq => (by cases hq), hu.total.refl hu.inUnit_one⟩
  | turn hreach hi hadds hjs ih =>
    have hc := hreach.weights hu.ranking hg
    exact hadds.bounds hu hc (hreach.weights_turn hu.ranking hg hi hjs) ih
      fun j hj => ((hjs j).1 hj).bounds hu hg hc ih hi

end Unit

/-! ## Where rules start -/

/-- The edge with its dot where the rule starts. -/
def Edge.restart (e : Edge) : Edge := { e with dot := 0, stop := e.origin }

/-- The item with which the rule of an item was started stands in the chart, unless the item is for
a listed word. -/
def Chart.Starts (g : WeightedGrammar W) (c : Chart W) (i : Item W) : Prop :=
  g.isCategory i.symbol = false → ∃ q, c.edge? q = some i.edge.restart

variable [One W] [LT W] {g : WeightedGrammar W} {tokens : List String} {c c' : Chart W}

omit [One W] [LT W] in
theorem Infers.starts {place : Nat} {i j : Item W} (hc : c.All (c.Starts g))
    (hi : c.items[place]? = some i) (h : Infers g tokens c place i j) :
    c.Starts g j ∨ j.edge = j.edge.restart := by
  cases h with
  | predicted => exact .inr rfl
  | listed _ _ hw =>
    refine .inl fun hnot => ?_
    rw [Item.symbol, Item.listed, WeightedGrammar.isCategory_of_wordWeight? hw] at hnot
    cases hnot
  | literal =>
    have hstarts := hc hi
    exact .inl fun hnot => hstarts hnot
  | completed _ _ hw _ _ _ =>
    have hstarts := hc hw
    exact .inl fun hnot => hstarts hnot

/-- Of every item of a reachable chart the item stands in it with which its rule was started. -/
theorem Reachable.starts (h : Reachable g tokens c) : c.All (c.Starts g) := by
  induction h with
  | initial =>
    intro p i hi hnot
    obtain ⟨rfl, rfl⟩ := getElem?_items_initialChart.1 hi
    exact ⟨0, Chart.edge?_of_item hi⟩
  | @turn c c' place i js improved hreach hi hadds hjs ih =>
    have hedges {q : Nat} {e : Edge} (h : c.edge? q = some e) : c'.edge? q = some e := by
      obtain ⟨x, hx, -⟩ := Option.map_eq_some_iff.1 h
      rw [hadds.edge?_eq hx, h]
    intro q x hx hnot
    rcases hadds.mem_or_mem hx with hold | hnew
    · obtain ⟨p, hp⟩ := ih hold hnot
      exact ⟨p, hedges hp⟩
    · rcases ((hjs x).1 hnew).starts ih hi with hstarts | hrestart
      · obtain ⟨p, hp⟩ := hstarts hnot
        exact ⟨p, hedges hp⟩
      · exact ⟨q, hrestart ▸ Chart.edge?_of_item hx⟩

/-! ## Finished charts -/

namespace Saturated

variable {P : W → Prop} {le : W → W → Prop}

/-- The dot of an item has moved over whatever tiles a part of the input, and made the product of
the children by the way. -/
theorem holds_tiles (h : Saturated P le g tokens c) {ps : List Production} {places : List Nat}
    {k stop : Nat} (htiles : Tiles g tokens c ps places k stop) {place : Nat} {i : Item W} {w : W}
    (hi : c.items[place]? = some i) (hdrop : i.dotted.rule.productions.drop i.dotted.dot = ps)
    (hstop : i.stop = k) (hw : P w) (hle : le w i.weight) :
    c.Holds le (i.edge.finish stop) (c.product w places) := by
  induction htiles generalizing place i w with
  | nil =>
    have hdot : i.dotted.dot = i.dotted.rule.productions.length :=
      Nat.le_antisymm (h.proper hi).dot_le (List.drop_eq_nil_iff.1 hdrop)
    refine ⟨place, i, hi, ?_, hle⟩
    simp only [Item.edge, Edge.finish, hdot, hstop]
  | word hliteral hword _ ih =>
    obtain ⟨hterminal, hcategory⟩ := Production.isLiteral_iff.1 hliteral
    have hover := h.settled hi
      (.literal (DottedRule.next?_of_drop hdrop) hterminal hcategory (hstop.symm ▸ hword))
    obtain ⟨q, j, hj, hdrop', hstop', hweight, hfinish⟩ := hover.exists_advanced hdrop
    rw [← hfinish]
    exact ih hj hdrop' (hstop'.trans (congrArg (· + 1) hstop)) hw
      (h.ranking.trans hw (h.weights hi) (h.weights hj) hle hweight)
  | item _ hedge hsymbol hend hgoal _ _ ih =>
    obtain ⟨child, hchild, rfl⟩ := Option.map_eq_some_iff.1 hedge
    have hwc := h.weights hchild
    have hwi := h.weights hi
    have hover := h.holds_advance hi (DottedRule.next?_of_drop hdrop) hwc hend hgoal hstop.symm
      hsymbol ⟨_, child, hchild, rfl, h.ranking.refl hwc⟩
    obtain ⟨q, j, hj, hdrop', hstop', hweight, hfinish⟩ := hover.exists_advanced hdrop
    have hmul : le (child.weight * w) (child.weight * i.weight) :=
      h.ranking.mul_le_mul hwc hwc hw hwi (h.ranking.refl hwc) hle
    rw [← hfinish, Chart.product_cons hchild]
    exact ih hj hdrop' hstop' (h.ranking.mul hwc hw)
      (h.ranking.trans (h.ranking.mul hwc hw) (h.ranking.mul hwc hwi) (h.weights hj) hmul hweight)

/-- In a finished chart a completed item is no lighter than its children make any alternative with
its productions. -/
theorem product_le (h : Saturated P le g tokens c) (hreach : Reachable g tokens c)
    {place : Nat} {i : Item W} (hi : c.items[place]? = some i) (hend : i.dotted.next? = none)
    (hgoal : i.forGoal = false) (hcategory : g.isCategory i.symbol = false)
    (htiles : Tiles g tokens c i.dotted.rule.productions i.children i.origin i.stop)
    {r : WeightedRule W} (hrule : r ∈ g.alternatives i.symbol)
    (hproductions : r.productions = i.dotted.rule.productions) :
    le (c.product r.weight i.children) i.weight := by
  obtain ⟨q, hq⟩ := hreach.starts hi hcategory
  obtain ⟨x, hx, hxedge⟩ := Option.map_eq_some_iff.1 hq
  have hsymbol : x.symbol = i.symbol := congrArg Edge.symbol hxedge
  have hxstop : x.stop = i.origin := congrArg Edge.stop hxedge
  obtain ⟨q', y, hy, hyedge, hle⟩ := hreach.holds_predicted h.ranking h.weightsIn hx
    (congrArg Edge.dot hxedge) ((congrArg Edge.forGoal hxedge).trans hgoal) (hsymbol ▸ hrule)
  have hydrop : y.dotted.rule.productions.drop y.dotted.dot = i.dotted.rule.productions := by
    have hdot : y.dotted.dot = 0 := congrArg Edge.dot hyedge
    rw [hdot, List.drop_zero, ← hproductions]
    exact congrArg Edge.productions hyedge
  obtain ⟨p, z, hz, hzedge, hle'⟩ := h.holds_tiles htiles hy hydrop
    ((congrArg Edge.stop hyedge).trans hxstop) (h.weightsIn.rules hrule) hle
  have hdot : i.dotted.dot = i.dotted.rule.productions.length :=
    Nat.le_antisymm (h.proper hi).dot_le (List.getElem?_eq_none_iff.1 hend)
  have hedge : z.edge = i.edge := by
    rw [hzedge, hyedge, Item.edge_predicted _ hrule, hxstop]
    simp only [Edge.finish, Item.edge, hproductions, hdot, hgoal]
  obtain rfl := hreach.valid.apart hz hi hedge
  obtain rfl := Option.some.inj (hz.symm.trans hi)
  exact hle'

end Saturated

end TabularParsing.Earley
