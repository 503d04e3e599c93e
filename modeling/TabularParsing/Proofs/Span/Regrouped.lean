import TabularParsing.Proofs.Span.Correspondence
import TabularParsing.ScoredParse

/-!
# Charts of regrouped rules

Two grammars that have the same nonterminals, each with the same alternatives, may have their rules
in another order over all. A cell gets its offers from the rules of its own symbol, so the charts
of the two are equal, whatever the policy.

## Main definition

* `Grammar.Regrouped`: same nonterminals, same alternatives.

## Main statement

* `Grammar.Regrouped.chart_eq`
-/
namespace TabularParsing

variable {α β : Type}

namespace SpanMap

theorem getElem?_cells (t : SpanMap α) (i : Nat) (a : α) :
    t.cells[i]? = some (some a) ↔ t.get? (Constituent.ofPlace t.len t.symbols i) = some a := by
  rw [get?_eq_some_iff, Constituent.place_ofPlace]
  exact ⟨fun h => ⟨t.valid_of_set i a h, h⟩, And.right⟩

/-- Two maps for the same keys that hold the same are equal. -/
theorem ext_get? {t u : SpanMap α} (hshape : t.SameShape u) (h : ∀ k, t.get? k = u.get? k) :
    t = u := by
  obtain ⟨hlen, hsymbols⟩ := hshape
  have hsize : t.cells.size = u.cells.size := by rw [t.size_cells, u.size_cells, hlen, hsymbols]
  have hcells : t.cells = u.cells := by
    refine Array.ext hsize fun i hi hi' => Option.ext fun a => ?_
    have hcell := t.getElem?_cells i a
    rw [h, hlen, hsymbols, ← getElem?_cells, Array.getElem?_eq_getElem hi,
      Array.getElem?_eq_getElem hi', Option.some_inj, Option.some_inj] at hcell
    exact hcell
  cases t
  cases u
  simp only [mk.injEq]
  exact ⟨hlen, hsymbols, hcells⟩

end SpanMap

namespace Grammar

variable {g g' : Grammar} {policy : CellPolicy α β} {note : Rule → β}

theorem alternatives_eq_append (g : Grammar) (s : String) :
    g.alternatives s = g.wordRules.filter (fun r => r.lhs == s) ++
      g.pairRules.filter (fun r => r.lhs == s) := by
  rw [alternatives_eq, sortedRules, List.filter_append]

/-- The word rules of a symbol. -/
theorem filter_wordRules (g : Grammar) (s : String) :
    g.wordRules.filter (fun r => r.lhs == s) = (g.alternatives s).filter Rule.isWord := by
  rw [alternatives_eq_append, List.filter_append, wordRules_eq, pairRules_eq]
  simp [List.filter_filter, Rule.isWord, Rule.isPair, Bool.and_comm, Bool.and_left_comm]

/-- The pair rules of a symbol. -/
theorem filter_pairRules (g : Grammar) (s : String) :
    g.pairRules.filter (fun r => r.lhs == s) = (g.alternatives s).filter Rule.isPair := by
  rw [alternatives_eq_append, List.filter_append, wordRules_eq, pairRules_eq]
  simp [List.filter_filter, Rule.isWord, Rule.isPair, Bool.and_comm, Bool.and_left_comm]

/-- Offers that only the rules of one symbol make. -/
theorem filterMap_filter_lhs {f : Rule → Option α} {s : String} (rs : List Rule)
    (hf : ∀ r, r.lhs ≠ s → f r = none) :
    (rs.filter fun r => r.lhs == s).filterMap f = rs.filterMap f := by
  rw [List.filterMap_filter]
  refine List.filterMap_congr fun r _ => ?_
  by_cases hr : r.lhs = s
  · simp [hr]
  · simp [hr, hf r hr]

/-- Word rules of other symbols offer nothing. -/
theorem wordOffer_of_ne {s word : String} {position a : Nat} {r : Rule}
    (ha : g.index? s = some a) (hr : r.lhs ≠ s) :
    g.wordOffer policy note word position a r = none := by
  unfold wordOffer
  cases hindex : g.index? r.lhs with
  | none => rfl
  | some b =>
    have hb : b ≠ a := fun h => hr (index?_inj (h ▸ hindex) ha)
    cases r.word? <;> simp [hb]

/-- Pair rules of other symbols offer nothing. -/
theorem pairOffer_of_ne {cell : Constituent → Option α} {s : String} {first last a mid : Nat}
    {r : Rule} (ha : g.index? s = some a) (hr : r.lhs ≠ s) :
    g.pairOffer policy note cell first last a mid r = none := by
  unfold pairOffer
  cases hindices : pairIndicesBy g.index? r with
  | none => rfl
  | some p =>
    have hlhs : g.index? r.lhs = some p.lhs := by
      simp only [pairIndicesBy, Option.bind_eq_bind, Option.bind_eq_some_iff, Option.pure_def,
        Option.some.injEq] at hindices
      obtain ⟨_, -, b, hb, _, -, _, -, rfl⟩ := hindices
      exact hb
    have hp : p.lhs ≠ a := fun h => hr (index?_inj (h ▸ hlhs) ha)
    simp [splitOffer, hp]

/-- Same nonterminals, same alternatives. -/
structure Regrouped (g g' : Grammar) : Prop where
  nonterminals : g'.nonterminals = g.nonterminals
  alternatives : ∀ s, g'.alternatives s = g.alternatives s

namespace Regrouped

theorem index?_eq (h : g.Regrouped g') (s : String) : g'.index? s = g.index? s := by
  refine Option.ext fun i => ?_
  rw [index?_eq_some_iff, index?_eq_some_iff, h.nonterminals]

/-- The offers to the cell of a word. -/
theorem leafOffers_eq (h : g.Regrouped g') {s : String} {a : Nat} (ha : g.index? s = some a)
    (word : String) (position : Nat) :
    leafOffers policy (g'.leafRules note) word position a =
      leafOffers policy (g.leafRules note) word position a := by
  have ha' := (h.index?_eq s).trans ha
  have hoffer : g'.wordOffer policy note word position a =
      g.wordOffer policy note word position a := by
    funext r
    rw [wordOffer, wordOffer, h.index?_eq]
  rw [Grammar.leafOffers_eq, Grammar.leafOffers_eq,
    ← filterMap_filter_lhs g'.wordRules fun r hr => wordOffer_of_ne ha' hr,
    ← filterMap_filter_lhs g.wordRules fun r hr => wordOffer_of_ne ha hr,
    filter_wordRules, filter_wordRules, h.alternatives, hoffer]

/-- The offers to the cell of a longer span, over cells that agree. -/
theorem splitOffers_eq (h : g.Regrouped g') {s : String} {first last a : Nat}
    (ha : g.index? s = some a) {cell cell' : Constituent → Option α}
    (hcell : ∀ k : Constituent, k.last - k.first < last - first → cell' k = cell k) :
    splitOffers policy (g'.splitRules note) cell' first last a =
      splitOffers policy (g.splitRules note) cell first last a := by
  have ha' := (h.index?_eq s).trans ha
  rw [Grammar.splitOffers_eq, Grammar.splitOffers_eq]
  refine List.flatMap_congr fun mid hmid => ?_
  rw [List.mem_range'_1] at hmid
  have hoffer : g'.pairOffer policy note cell' first last a mid =
      g.pairOffer policy note cell first last a mid := by
    funext r
    rw [pairOffer, pairOffer, funext h.index?_eq]
    cases pairIndicesBy g.index? r with
    | none => rfl
    | some p =>
      have hleft := hcell ⟨first, mid, p.left⟩ (by simp only; omega)
      have hright := hcell ⟨mid + 1, last, p.right⟩ (by simp only; omega)
      simp [splitOffer, hleft, hright]
  rw [← filterMap_filter_lhs g'.pairRules fun r hr => pairOffer_of_ne ha' hr,
    ← filterMap_filter_lhs g.pairRules fun r hr => pairOffer_of_ne ha hr,
    filter_pairRules, filter_pairRules, h.alternatives, hoffer]

/-- Cells are equal one by one, those of shorter spans first. -/
theorem get?_chart_eq (h : g.Regrouped g') (policy : CellPolicy α β) (note : Rule → β)
    (tokens : List String) (k : Constituent) :
    (g'.chart policy note tokens).get? k = (g.chart policy note tokens).get? k := by
  obtain ⟨first, last, a⟩ := k
  induction hn : last - first using Nat.strongRecOn generalizing first last a with
  | ind n ih =>
    by_cases hvalid : Constituent.Valid ⟨first, last, a⟩ tokens.length g.nonterminals.length
    · obtain ⟨hfirst, hle, hlast, ha⟩ := hvalid
      simp only at hfirst hle hlast ha
      have ha' : a < g'.nonterminals.length := by rwa [h.nonterminals]
      obtain ⟨s, hs⟩ := exists_symbol ha
      rcases Nat.lt_or_eq_of_le hle with hlt | rfl
      · rw [g'.get?_chart_split hfirst hlt hlast ha', g.get?_chart_split hfirst hlt hlast ha,
          h.splitOffers_eq hs fun k hk => ih _ (hn ▸ hk) _ _ _ rfl]
      · obtain ⟨i, rfl⟩ : ∃ i, first = i + 1 := ⟨first - 1, by omega⟩
        have hw : tokens[i]? = some tokens[i] := List.getElem?_eq_getElem (by omega)
        rw [g'.get?_chart_leaf hw ha', g.get?_chart_leaf hw ha, h.leafOffers_eq hs]
    · rw [get?_chart_of_not_valid hvalid, get?_chart_of_not_valid (by rwa [h.nonterminals])]

/-- Charts do not depend on how the rules are grouped. -/
theorem chart_eq (h : g.Regrouped g') (policy : CellPolicy α β) (note : Rule → β)
    (tokens : List String) : g'.chart policy note tokens = g.chart policy note tokens := by
  refine SpanMap.ext_get? ?_ (h.get?_chart_eq policy note tokens)
  have hshape := g.sameShape_chart policy note tokens
  have hshape' := g'.sameShape_chart policy note tokens
  rw [h.nonterminals] at hshape'
  exact ⟨hshape'.1.trans hshape.1.symm, hshape'.2.trans hshape.2.symm⟩

end Regrouped

end Grammar

end TabularParsing
