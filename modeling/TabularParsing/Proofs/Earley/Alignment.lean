import TabularParsing.Proofs.Earley.Arena
import TabularParsing.Proofs.Fallible
import TabularParsing.Earley.Agenda

/-!
# Charts with the same edges

Two charts are aligned if their states hold the same places and the items at each place share
their edge, whatever these weigh and however they were found. What a turn reads of an item besides
its weight belongs to its edge, so turns on the same place of aligned charts, of grammars that
differ in their weights only, lead to aligned charts.

## Main definitions

* `WeightedGrammar.Reweighs`: the grammars differ in their weights only.
* `Chart.Aligned`: the charts have the same edges in the same order.

## Main statement

* `Chart.Aligned.process`: one turn on both charts.
-/
namespace TabularParsing

variable {W : Type}

/-- The grammars differ in nothing but the weights of rules and words. -/
structure WeightedGrammar.Reweighs (g g' : WeightedGrammar W) : Prop where
  start : g.start = g'.start
  alternatives : ∀ symbol, List.Forall₂ (fun r r' => r.same r' = true) (g.alternatives symbol)
    (g'.alternatives symbol)
  isCategory : ∀ symbol, g.isCategory symbol = g'.isCategory symbol
  listed : ∀ category word,
    (g.wordWeight? category word).isSome = (g'.wordWeight? category word).isSome

namespace WeightedGrammar.Reweighs

variable {g g' : WeightedGrammar W}

theorem refl (g : WeightedGrammar W) : g.Reweighs g :=
  ⟨rfl, fun _ => List.forall₂_same.2 fun _ _ => WeightedRule.same_iff.2 ⟨rfl, rfl⟩, fun _ => rfl,
    fun _ _ => rfl⟩

theorem addFilled (hg : g.Reweighs g') {r r' : WeightedRule W} (hr : r.same r' = true)
    (h : r.productions ≠ []) (h' : r'.productions ≠ []) :
    (g.addFilled r h).Reweighs (g'.addFilled r' h') := by
  refine ⟨hg.start, fun symbol => ?_, hg.isCategory, hg.listed⟩
  rw [alternatives_addFilled, alternatives_addFilled, (WeightedRule.same_iff.1 hr).1]
  refine List.rel_append (hg.alternatives symbol) ?_
  split
  · exact .cons hr .nil
  · exact .nil

theorem listWord (hg : g.Reweighs g') (category word : String) (w w' : W) :
    (g.listWord category word w).Reweighs (g'.listWord category word w') := by
  refine ⟨hg.start, hg.alternatives, fun symbol => ?_, fun category' word' => ?_⟩
  · rw [isCategory_listWord, isCategory_listWord, hg.isCategory]
  · rw [wordWeight?_listWord, wordWeight?_listWord]
    split
    · rfl
    · exact hg.listed category' word'

end WeightedGrammar.Reweighs

namespace Earley

namespace Chart

variable {c c' d : Chart W} {k place : Nat} {i i' j j' : Item W}

/-- The states hold the same places, and items at the same place share their edge. -/
structure Aligned (c c' : Chart W) : Prop where
  states : c.states = c'.states
  edge? : ∀ place, c.edge? place = c'.edge? place

namespace Aligned

theorem refl (c : Chart W) : c.Aligned c := ⟨rfl, fun _ => rfl⟩

theorem symm (h : c.Aligned c') : c'.Aligned c := ⟨h.states.symm, fun p => (h.edge? p).symm⟩

theorem trans (h : c.Aligned c') (h' : c'.Aligned d) : c.Aligned d :=
  ⟨h.states.trans h'.states, fun p => (h.edge? p).trans (h'.edge? p)⟩

/-- Where one chart has an item the other has one with its edge. -/
theorem edge_eq (h : c.Aligned c') (hi : c.items[place]? = some i)
    (hi' : c'.items[place]? = some i') : i.edge = i'.edge := by
  have hedge := h.edge? place
  rw [edge?_of_item hi, edge?_of_item hi'] at hedge
  exact Option.some.inj hedge

theorem size_items (h : c.Aligned c') : c.items.size = c'.items.size := by
  have hnone (n : Nat) : c.items.size ≤ n ↔ c'.items.size ≤ n := by
    have hedge := h.edge? n
    rw [← Array.getElem?_eq_none_iff, ← Array.getElem?_eq_none_iff,
      ← Option.map_eq_none_iff (f := Item.edge), ← Option.map_eq_none_iff (f := Item.edge)]
    exact iff_of_eq (congrArg (· = none) hedge)
  exact Nat.le_antisymm ((hnone _).2 (Nat.le_refl _)) ((hnone _).1 (Nat.le_refl _))

end Aligned

/-! ## Adding items -/

theorem find?_eq (c : Chart W) (s : Array Nat) (j : Item W) :
    c.find? s j = s.findIdx? fun place => decide (c.edge? place = some j.edge) := by
  refine congrArg s.findIdx? (funext fun place => ?_)
  rw [Bool.eq_iff_iff, decide_eq_true_iff, edge?]
  cases c.items[place]? with
  | none => simp
  | some i => simp [Item.merges_iff]

/-- An item in the place of one with its edge leaves the edges as they are. -/
theorem aligned_replace (hi : c.items[place]? = some i) (hedge : i.edge = j.edge) :
    c.Aligned (c.replace place j) := by
  refine ⟨rfl, fun q => ?_⟩
  rw [edge?, edge?, getElem?_items_replace hi]
  split
  · rename_i hq
    rw [← hq, hi, Option.map_some, Option.map_some, hedge]
  · rfl

theorem Aligned.push (h : c.Aligned c') (k : Nat) (hedge : j.edge = j'.edge) :
    (c.push k j).Aligned (c'.push k j') := by
  refine ⟨by rw [Chart.push, Chart.push, h.states, h.size_items], fun q => ?_⟩
  have hq := h.edge? q
  rw [Chart.edge?] at hq ⊢
  rw [Chart.edge?] at hq ⊢
  rw [getElem?_items_push, getElem?_items_push, h.size_items]
  split
  · rw [Option.map_some, Option.map_some, hedge]
  · exact hq

variable [LT W] [DecidableLT W] {insertion insertion' : Insertion} {d' : Chart W}

/-- An item whose edge stands in the state already changes no edge. -/
theorem aligned_of_add_of_find? {s : Array Nat} {position : Nat} (hs : c.state k = .ok s)
    (hfind : c.find? s j = some position) (h : c.add k j = .ok (insertion, d)) :
    c.Aligned d := by
  obtain ⟨place, i, hplace, hi, hedge⟩ := exists_of_find? hfind
  simp only [add, hs, hfind, hplace, Option.getD_some, item_eq_ok_iff.2 hi, bind, Except.bind,
    pure, Except.pure] at h
  split at h
  · obtain ⟨-, rfl⟩ := Prod.mk.inj (Except.ok.inj h)
    exact aligned_replace hi hedge
  · obtain ⟨-, rfl⟩ := Prod.mk.inj (Except.ok.inj h)
    exact .refl c

theorem Aligned.add (h : c.Aligned c') (hedge : j.edge = j'.edge)
    (hadd : c.add k j = .ok (insertion, d)) (hadd' : c'.add k j' = .ok (insertion', d')) :
    d.Aligned d' := by
  obtain ⟨s, hs, -⟩ := exists_of_bind_ok hadd
  have hs' : c'.state k = .ok s := by rwa [state_eq_ok_iff, ← h.states, ← state_eq_ok_iff]
  have hsame : c.find? s j = c'.find? s j' := by
    rw [find?_eq, find?_eq, hedge]
    exact congrArg s.findIdx? (funext fun place => by rw [h.edge? place])
  cases hfind : c.find? s j with
  | some position =>
    have hd := aligned_of_add_of_find? hs hfind hadd
    have hd' := aligned_of_add_of_find? hs' (hsame ▸ hfind) hadd'
    exact hd.symm.trans (h.trans hd')
  | none =>
    simp only [Chart.add, hs, hfind, bind, Except.bind, pure, Except.pure] at hadd
    simp only [Chart.add, hs', hsame ▸ hfind, bind, Except.bind, pure, Except.pure] at hadd'
    obtain ⟨-, rfl⟩ := Prod.mk.inj (Except.ok.inj hadd)
    obtain ⟨-, rfl⟩ := Prod.mk.inj (Except.ok.inj hadd')
    exact h.push k hedge

/-- Where only the chart is answered. -/
theorem Aligned.add_one (h : c.Aligned c') (hedge : j.edge = j'.edge)
    (hok : (do
      let (_, c) ← c.add k j
      return c) = Except.ok d)
    (hok' : (do
      let (_, c) ← c'.add k j'
      return c) = Except.ok d') : d.Aligned d' := by
  obtain ⟨⟨insertion, e⟩, hadd, hok⟩ := exists_of_bind_ok hok
  obtain ⟨⟨insertion', e'⟩, hadd', hok'⟩ := exists_of_bind_ok hok'
  obtain rfl := Except.ok.inj hok
  obtain rfl := Except.ok.inj hok'
  exact h.add hedge hadd hadd'

omit [DecidableLT W] in
/-- What stands in a chart already adds no edge to it. -/
theorem Adds.aligned {js : List (Item W)} {improved : List Nat} (hadds : c.Adds js improved d)
    (hjs : ∀ j ∈ js, ∃ (place : Nat) (i : Item W), c.items[place]? = some i ∧ i.edge = j.edge) :
    c.Aligned d := by
  induction hadds with
  | nil => exact .refl _
  | @cons c c' d j insertion js improved hadd _ ih =>
    have hhead : c.Aligned c' := by
      obtain ⟨place, i, hi, hedge⟩ := hjs j List.mem_cons_self
      cases hadd with
      | new hnew => exact absurd hedge (hnew hi)
      | improved _ _ hold hedge' _ => exact aligned_replace hold hedge'
      | kept => exact .refl c
    refine hhead.trans (ih fun j hj => ?_)
    obtain ⟨place, i, hi, hedge⟩ := hjs j (List.mem_cons_of_mem _ hj)
    have hplace := hhead.edge? place
    rw [edge?_of_item hi] at hplace
    obtain ⟨i', hi', hedge'⟩ := Option.map_eq_some_iff.1 hplace.symm
    exact ⟨place, i', hi', hedge'.trans hedge⟩

end Chart

/-! ## Turns -/

namespace Chart.Aligned

variable [LT W] [DecidableLT W] {g g' : WeightedGrammar W} {tokens : List String}
  {c c' d d' : Chart W} {k place : Nat} {i i' : Item W}

theorem predict (hg : g.Reweighs g') (h : c.Aligned c') {symbol : String}
    (hok : Earley.predict g k symbol c = .ok d) (hok' : Earley.predict g' k symbol c' = .ok d') :
    d.Aligned d' := by
  refine foldlM_related (hg.alternatives symbol) (fun {r r' _ _ _ _} hr hb he he' => ?_) h hok
    hok'
  obtain ⟨hsymbol, hproductions⟩ := WeightedRule.same_iff.1 hr
  refine hb.add_one ?_ he he'
  simp only [Item.edge, Item.symbol, DottedRule.ofRule, hsymbol, hproductions]

theorem scan (hg : g.Reweighs g') (h : c.Aligned c') (hedge : i.edge = i'.edge) {needed : String}
    (hok : Earley.scan g tokens k i needed c = .ok d)
    (hok' : Earley.scan g' tokens k i' needed c' = .ok d') : d.Aligned d' := by
  have hunchanged (hok : Except.ok c = Except.ok (ε := Fault) d)
      (hok' : Except.ok c' = Except.ok (ε := Fault) d') : d.Aligned d' :=
    Except.ok.inj hok ▸ Except.ok.inj hok' ▸ h
  unfold Earley.scan at hok hok'
  cases hword : tokens[k]? with
  | none =>
    simp only [hword] at hok hok'
    exact hunchanged hok hok'
  | some word =>
    simp only [hword, ← hg.isCategory needed] at hok hok'
    by_cases hcategory : g.isCategory needed = true
    · rw [if_pos hcategory] at hok hok'
      have hlisted := hg.listed needed word
      -- either both categories list the word or neither does
      cases hw : g.wordWeight? needed word <;> cases hw' : g'.wordWeight? needed word <;>
        simp only [hw, hw', Option.isSome_none, Option.isSome_some, reduceCtorEq]
          at hok hok' hlisted
      · exact hunchanged hok hok'
      · refine h.add_one ?_ hok hok'
        rfl
    · rw [if_neg hcategory] at hok hok'
      by_cases hneeded : needed = word
      · rw [if_pos hneeded] at hok hok'
        refine h.add_one ?_ hok hok'
        exact congrArg (Edge.advance · (k + 1)) hedge
      · rw [if_neg hneeded] at hok hok'
        exact hunchanged hok hok'

variable [Mul W]

/-- What waits at a place waits in both charts. -/
theorem completeOne (h : c.Aligned c') (hedge : i.edge = i'.edge) {waitingPlace : Nat}
    {improved improved' : List Nat} {r r' : Chart W × List Nat}
    (hok : Earley.completeOne k place i c improved waitingPlace = .ok r)
    (hok' : Earley.completeOne k place i' c' improved' waitingPlace = .ok r') :
    r.1.Aligned r'.1 := by
  unfold Earley.completeOne at hok hok'
  obtain ⟨waiting, hwaiting, hok⟩ := exists_of_bind_ok hok
  obtain ⟨waiting', hwaiting', hok'⟩ := exists_of_bind_ok hok'
  have hsame := h.edge_eq (item_eq_ok_iff.1 hwaiting) (item_eq_ok_iff.1 hwaiting')
  have hnext : waiting.dotted.next? = waiting'.dotted.next? := congrArg Edge.next? hsame
  have hsymbol : i.symbol = i'.symbol := congrArg Edge.symbol hedge
  rw [← hnext, ← hsymbol] at hok'
  split at hok
  · rename_i hnone
    simp only [hnone] at hok'
    obtain rfl := Except.ok.inj hok
    obtain rfl := Except.ok.inj hok'
    exact h
  · rename_i p hp
    simp only [hp] at hok'
    by_cases hwaits : p.symbol = i.symbol
    · rw [if_pos hwaits] at hok hok'
      obtain ⟨⟨insertion, e⟩, hadd, hok⟩ := exists_of_bind_ok hok
      obtain ⟨⟨insertion', e'⟩, hadd', hok'⟩ := exists_of_bind_ok hok'
      have he : e.Aligned e' := by
        refine h.add ?_ hadd hadd'
        exact congrArg (Edge.advance · k) hsame
      have hfst : r.1 = e := by
        cases insertion <;> exact congrArg Prod.fst (Except.ok.inj hok).symm
      have hfst' : r'.1 = e' := by
        cases insertion' <;> exact congrArg Prod.fst (Except.ok.inj hok').symm
      rwa [hfst, hfst']
    · rw [if_neg hwaits] at hok hok'
      obtain rfl := Except.ok.inj hok
      obtain rfl := Except.ok.inj hok'
      exact h

theorem complete (h : c.Aligned c') (hedge : i.edge = i'.edge) {r r' : Chart W × List Nat}
    (hok : Earley.complete k place i c = .ok r) (hok' : Earley.complete k place i' c' = .ok r') :
    r.1.Aligned r'.1 := by
  have horigin : i.origin = i'.origin := congrArg Edge.origin hedge
  have hgoal : i.forGoal = i'.forGoal := congrArg Edge.forGoal hedge
  unfold Earley.complete at hok hok'
  rw [← hgoal, ← horigin] at hok'
  split at hok
  · rename_i hforGoal
    rw [if_pos hforGoal] at hok'
    obtain rfl := Except.ok.inj hok
    obtain rfl := Except.ok.inj hok'
    exact h
  · rename_i hforGoal
    rw [if_neg hforGoal] at hok'
    obtain ⟨s, hs, hok⟩ := exists_of_bind_ok hok
    obtain ⟨s', hs', hok'⟩ := exists_of_bind_ok hok'
    obtain rfl : s = s' := by
      rw [state_eq_ok_iff, h.states, ← state_eq_ok_iff, hs'] at hs
      exact (Except.ok.inj hs).symm
    refine foldlM_related (R := fun b b' => b.1.Aligned b'.1)
      (List.forall₂_same.2 fun _ _ => rfl) (fun {x x' b e b' e'} hx hb he he' => ?_) h hok hok'
    obtain rfl : x = x' := hx
    obtain ⟨s, hs, he⟩ := exists_of_bind_ok he
    obtain ⟨s', hs', he'⟩ := exists_of_bind_ok he'
    obtain rfl : s = s' := by
      rw [state_eq_ok_iff, hb.states, ← state_eq_ok_iff, hs'] at hs
      exact (Except.ok.inj hs).symm
    cases hplace : s[x]? with
    | none =>
      simp only [hplace] at he he'
      rw [← Except.ok.inj he, ← Except.ok.inj he']
      exact hb
    | some waitingPlace =>
      simp only [hplace] at he he'
      exact hb.completeOne hedge he he'

/-- A turn on the same place of aligned charts leaves them aligned. -/
theorem process (hg : g.Reweighs g') (h : c.Aligned c') {r r' : Chart W × List Nat}
    (hok : Earley.process g tokens k place c = .ok r)
    (hok' : Earley.process g' tokens k place c' = .ok r') : r.1.Aligned r'.1 := by
  unfold Earley.process at hok hok'
  obtain ⟨i, hi, hok⟩ := exists_of_bind_ok hok
  obtain ⟨i', hi', hok'⟩ := exists_of_bind_ok hok'
  have hedge := h.edge_eq (item_eq_ok_iff.1 hi) (item_eq_ok_iff.1 hi')
  have hnext : i.dotted.next? = i'.dotted.next? := congrArg Edge.next? hedge
  rw [← hnext] at hok'
  cases hdot : i.dotted.next? with
  | none =>
    simp only [hdot] at hok hok'
    exact h.complete hedge hok hok'
  | some p =>
    simp only [hdot, ← hg.isCategory p.symbol] at hok hok'
    by_cases hscan : (p.isTerminal || g.isCategory p.symbol) = true
    · rw [if_pos hscan] at hok hok'
      obtain ⟨e, he, hok⟩ := exists_of_bind_ok hok
      obtain ⟨e', he', hok'⟩ := exists_of_bind_ok hok'
      rw [← Except.ok.inj hok, ← Except.ok.inj hok']
      exact h.scan hg hedge he he'
    · rw [if_neg hscan] at hok hok'
      obtain ⟨e, he, hok⟩ := exists_of_bind_ok hok
      obtain ⟨e', he', hok'⟩ := exists_of_bind_ok hok'
      rw [← Except.ok.inj hok, ← Except.ok.inj hok']
      exact h.predict hg he he'

end Chart.Aligned

end Earley

end TabularParsing
