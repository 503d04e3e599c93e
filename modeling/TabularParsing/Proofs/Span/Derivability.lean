import TabularParsing.Grammar.Language
import TabularParsing.Proofs.Segment
import TabularParsing.Proofs.Span.Rules

/-!
# What the set cells of a chart derive

A policy that refuses exactly the rules that are not usable sets exactly the cells whose symbol
derives the span by usable rules. The proof is an induction on the length of the span: the offers
to a cell are the local branches of its derivations.

## Main statement

* `Grammar.Admits.get?_chart_iff`: set cells are derivable cells.
-/
namespace TabularParsing.Grammar

variable {α β : Type} {g : Grammar} {policy : CellPolicy α β} {note : Rule → β}

/-- Two derivations in a row part a segment of the sentence at a position, and their symbols have
indices. -/
theorem exists_parting {usable : Rule → Prop} {tokens us vs : List String} {left right : String}
    {first last : Nat} (hfirst : 1 ≤ first) (hlast : last ≤ tokens.length)
    (husable : ∀ r, usable r → r ∈ g.rules) (hus : DerivesBy usable left us)
    (hvs : DerivesBy usable right vs) (h : us ++ vs = segment tokens (first - 1) last) :
    ∃ mid b c, first ≤ mid ∧ mid < last ∧ g.index? left = some b ∧ g.index? right = some c ∧
      us = segment tokens (first - 1) mid ∧ vs = segment tokens (mid + 1 - 1) last := by
  have hne : segment tokens (first - 1) last ≠ [] := by
    rw [← h]
    exact List.append_ne_nil_of_left_ne_nil hus.ne_nil vs
  have hlt := lt_of_segment_ne_nil hne
  obtain ⟨mid, -, -, rfl, rfl⟩ := exists_cut (Nat.le_of_lt hlt) hlast h
  have hleft := lt_of_segment_ne_nil hus.ne_nil
  have hright := lt_of_segment_ne_nil hvs.ne_nil
  obtain ⟨b, hb⟩ := exists_index? (Derives.mem_nonterminals (hus.mono husable))
  obtain ⟨c, hc⟩ := exists_index? (Derives.mem_nonterminals (hvs.mono husable))
  exact ⟨mid, b, c, by omega, hright, hb, hc, rfl, rfl⟩

/-- The policy refuses exactly the rules that are not usable, as long as cells hold values that
are `ok`. -/
structure Admits (g : Grammar) (policy : CellPolicy α β) (note : Rule → β) (usable : Rule → Prop)
    (ok : α → Prop) : Prop where
  leaf : ∀ r ∈ g.rules, ∀ i, (∃ x, policy.leaf (note r) i = some x) ↔ usable r
  ok_leaf : ∀ r ∈ g.rules, ∀ i x, policy.leaf (note r) i = some x → ok x
  split : ∀ r ∈ g.rules, ∀ k x l y, ok x → ok y →
    ((∃ z, policy.split (note r) k x l y = some z) ↔ usable r)
  ok_split : ∀ r ∈ g.rules, ∀ k x l y z, ok x → ok y →
    policy.split (note r) k x l y = some z → ok z

namespace Admits

variable {usable : Rule → Prop} {ok : α → Prop} {tokens : List String}

/-- A cell of a chart lies in the sentence and belongs to a symbol of the grammar. -/
theorem valid_of_get?_chart {k : Constituent} {x : α}
    (h : (g.chart policy note tokens).get? k = some x) :
    k.Valid tokens.length g.nonterminals.length := by
  have hvalid := SpanMap.valid_of_get? h
  rwa [(g.sameShape_chart policy note tokens).1, (g.sameShape_chart policy note tokens).2]
    at hvalid

/-- What a cell of the finished chart holds was offered to it: by a word rule, or by a pair rule
over two shorter cells. -/
theorem offered_of_get?_chart {lhs : String} {first last a : Nat} {x : α}
    (ha : g.index? lhs = some a)
    (hx : (g.chart policy note tokens).get? ⟨first, last, a⟩ = some x) :
    (∃ w, first = last ∧ tokens[first - 1]? = some w ∧ Rule.word lhs w ∈ g.rules ∧
      policy.leaf (note (.word lhs w)) first = some x) ∨
    (first < last ∧
      ∃ mid n, g.OffersAt policy note (g.chart policy note tokens).get? first last lhs mid n x) := by
  obtain ⟨hfirst, hle, hlast, -⟩ := valid_of_get?_chart hx
  simp only at hfirst hle hlast
  rcases Nat.lt_or_eq_of_le hle with hlt | rfl
  · rw [g.get?_chart_split hfirst hlt hlast (index?_lt ha)] at hx
    exact .inr ⟨hlt, (mem_splitOffers ha).1 (mem_of_pick hx)⟩
  · obtain ⟨i, rfl⟩ : ∃ i, first = i + 1 := ⟨first - 1, by omega⟩
    have hw : tokens[i]? = some tokens[i] := List.getElem?_eq_getElem (by omega)
    rw [g.get?_chart_leaf hw (index?_lt ha)] at hx
    exact .inl ⟨_, rfl, hw, (mem_leafOffers ha).1 (mem_of_pick hx)⟩

theorem ok_of_get?_chart (h : g.Admits policy note usable ok) {k : Constituent} {x : α}
    (hx : (g.chart policy note tokens).get? k = some x) : ok x := by
  obtain ⟨first, last, a⟩ := k
  induction hn : last - first using Nat.strongRecOn generalizing first last a x with
  | ind n ih =>
    obtain ⟨lhs, ha⟩ := exists_symbol (valid_of_get?_chart hx).2.2.2
    rcases offered_of_get?_chart ha hx with ⟨w, -, -, hr, hx⟩ | ⟨hlt, hoffer⟩
    · exact h.ok_leaf _ hr _ _ hx
    · obtain ⟨mid, n, hr, hb, hc, hmid, hmid', hy, hz, hx⟩ := hoffer
      exact h.ok_split _ (mem_rules_of_getElem? hr) _ _ _ _ _ (ih _ (by omega) _ _ _ hy rfl)
        (ih _ (by omega) _ _ _ hz rfl) hx

/-- The set cells are those whose symbol derives their span by usable rules. -/
theorem get?_chart_iff (h : g.Admits policy note usable ok) {lhs : String} {first last a : Nat}
    (ha : g.index? lhs = some a) (hfirst : 1 ≤ first) (hle : first ≤ last)
    (hlast : last ≤ tokens.length) :
    (∃ x, (g.chart policy note tokens).get? ⟨first, last, a⟩ = some x) ↔
      DerivesBy (fun r => r ∈ g.rules ∧ usable r) lhs (segment tokens (first - 1) last) := by
  induction hn : last - first using Nat.strongRecOn generalizing lhs first last a with
  | ind n ih =>
    constructor
    · rintro ⟨x, hx⟩
      rcases offered_of_get?_chart ha hx with ⟨w, rfl, hw, hr, hx⟩ | ⟨hlt, hoffer⟩
      · have hseg := segment_succ hw
        rw [Nat.sub_add_cancel hfirst] at hseg
        rw [hseg]
        exact .word ⟨hr, (h.leaf _ hr _).1 ⟨x, hx⟩⟩
      · obtain ⟨mid, n, hr, hb, hc, hmid, hmid', hy, hz, hx⟩ := hoffer
        have hr := mem_rules_of_getElem? hr
        have husable := (h.split _ hr _ _ _ _ (h.ok_of_get?_chart hy) (h.ok_of_get?_chart hz)).1
          ⟨x, hx⟩
        rw [← segment_append tokens (show first - 1 ≤ mid by omega) (by omega)]
        exact .pair ⟨hr, husable⟩
          ((ih _ (by omega) hb hfirst hmid (by omega) rfl).1 ⟨_, hy⟩)
          ((ih _ (by omega) hc (by omega) (by omega) hlast rfl).1 ⟨_, hz⟩)
    · intro hderives
      generalize hws : segment tokens (first - 1) last = ws at hderives
      cases hderives with
      | @word _ w hr =>
        obtain ⟨rfl, hw⟩ := getElem?_of_segment_eq hlast hws
        rw [Nat.sub_add_cancel hfirst] at hlast ⊢
        have hoffers : (g.chart policy note tokens).get? ⟨first - 1 + 1, first - 1 + 1, a⟩ = _ :=
          g.get?_chart_leaf hw (index?_lt ha)
        rw [Nat.sub_add_cancel hfirst] at hoffers
        rw [← Option.isSome_iff_exists, hoffers, isSome_pick]
        obtain ⟨x, hx⟩ := (h.leaf _ hr.1 first).2 hr.2
        exact List.ne_nil_of_mem ((mem_leafOffers ha).2 ⟨hr.1, hx⟩)
      | @pair _ left right us vs hr hus hvs =>
        obtain ⟨m, b, c, hm, hm', hb, hc, rfl, rfl⟩ :=
          exists_parting hfirst hlast (fun _ h => h.1) hus hvs hws.symm
        obtain ⟨x, hx⟩ := (ih _ (by omega) hb hfirst hm (by omega) rfl).2 hus
        obtain ⟨y, hy⟩ := (ih _ (by omega) hc (by omega) hm' hlast rfl).2 hvs
        obtain ⟨z, hz⟩ := (h.split _ hr.1 ⟨first, m, b⟩ x ⟨m + 1, last, c⟩ y
          (h.ok_of_get?_chart hx) (h.ok_of_get?_chart hy)).2 hr.2
        obtain ⟨n, hn⟩ := List.mem_iff_getElem?.1 (pair_mem_pairRules.2 hr.1)
        rw [← Option.isSome_iff_exists,
          g.get?_chart_split hfirst (by omega) hlast (index?_lt ha), isSome_pick]
        exact List.ne_nil_of_mem ((mem_splitOffers ha).2
          ⟨m, n, .mk hn hb hc hm hm' hx hy hz⟩)

end Admits

end TabularParsing.Grammar
