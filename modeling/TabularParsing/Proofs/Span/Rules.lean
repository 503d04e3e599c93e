import Mathlib.Data.List.Nodup
import TabularParsing.Proofs.Grammar.Pass
import TabularParsing.Proofs.Span.Offers

/-!
# Offers and rules

The offers to a cell come from the rules of its symbol. Those of pair rules come in the order of
their splits, at one split in the order of the rules.

## Main statements

* `Grammar.mem_leafOffers`, `Grammar.mem_splitOffers`: which rules offer what.
* `Grammar.offersAt_of_splitOffers_eq`: in which order.
-/
namespace TabularParsing.Grammar

variable {α β : Type} {g : Grammar}

/-! ## Indices of symbols -/

theorem index?_lt {s : String} {a : Nat} (h : g.index? s = some a) :
    a < g.nonterminals.length :=
  (List.getElem?_eq_some_iff.1 (index?_eq_some_iff.1 h)).1

theorem index?_inj {s t : String} {a : Nat} (hs : g.index? s = some a)
    (ht : g.index? t = some a) : s = t := by
  rw [index?_eq_some_iff] at hs ht
  exact Option.some.inj (hs.symm.trans ht)

theorem exists_index? {s : String} (h : s ∈ g.nonterminals) : ∃ a, g.index? s = some a := by
  obtain ⟨a, ha⟩ := List.mem_iff_getElem?.1 h
  exact ⟨a, index?_eq_some_iff.2 ha⟩

theorem exists_symbol {a : Nat} (h : a < g.nonterminals.length) : ∃ s, g.index? s = some a :=
  ⟨g.nonterminals[a], index?_eq_some_iff.2 (List.getElem?_eq_getElem h)⟩

/-- The indices of a pair rule are those of its symbols. -/
theorem pairIndicesBy_eq_some_iff {lhs left right : String} {p : PairIndices} :
    pairIndicesBy g.index? (.pair lhs left right) = some p ↔
      g.index? lhs = some p.lhs ∧ g.index? left = some p.left ∧ g.index? right = some p.right := by
  obtain ⟨a, b, c⟩ := p
  simp only [pairIndicesBy, Rule.pair, Rule.children?, Option.bind_eq_bind, Option.bind_some,
    Option.bind_eq_some_iff, Option.pure_def, Option.some.injEq, PairIndices.mk.injEq]
  grind

/-! ## Offers as rules -/

theorem mem_leafRules {note : Rule → β} {q : LeafRule β} :
    q ∈ g.leafRules note ↔ ∃ lhs w a, Rule.word lhs w ∈ g.rules ∧ g.index? lhs = some a ∧
      q = ⟨a, w, note (.word lhs w)⟩ := by
  simp only [leafRules, List.mem_filterMap, mem_wordRules]
  constructor
  · rintro ⟨⟨lhs, rhs⟩, ⟨hr, hword⟩, hq⟩
    cases rhs with
    | pair left right => simp [Rule.isWord, Rhs.isPair] at hword
    | word w =>
      simp only [Rule.word?, Option.bind_eq_bind, Option.bind_eq_some_iff, Option.some.injEq,
        Option.pure_def] at hq
      obtain ⟨a, ha, _, rfl, rfl⟩ := hq
      exact ⟨lhs, w, a, hr, ha, rfl⟩
  · rintro ⟨lhs, w, a, hr, ha, rfl⟩
    exact ⟨_, ⟨hr, rfl⟩, by simp [Rule.word, Rule.word?, ha]⟩

theorem pair_mem_pairRules {lhs left right : String} :
    Rule.pair lhs left right ∈ g.pairRules ↔ Rule.pair lhs left right ∈ g.rules := by
  simp [mem_pairRules, Rule.isPair, Rule.pair, Rhs.isPair]

theorem mem_rules_of_getElem? {n : Nat} {lhs left right : String}
    (h : g.pairRules[n]? = some (.pair lhs left right)) : Rule.pair lhs left right ∈ g.rules :=
  pair_mem_pairRules.1 (List.mem_of_getElem? h)

/-- The `n`-th pair rule offers a value over the two cells that part a span behind the position
`mid`. -/
inductive OffersAt (g : Grammar) (policy : CellPolicy α β) (note : Rule → β)
    (cell : Constituent → Option α) (first last : Nat) (lhs : String) (mid n : Nat) :
    α → Prop where
  | mk {left right : String} {b c : Nat} {x y z : α} :
      g.pairRules[n]? = some (.pair lhs left right) → g.index? left = some b →
      g.index? right = some c → first ≤ mid → mid < last → cell ⟨first, mid, b⟩ = some x →
      cell ⟨mid + 1, last, c⟩ = some y →
      policy.split (note (.pair lhs left right)) ⟨first, mid, b⟩ x ⟨mid + 1, last, c⟩ y = some z →
      OffersAt g policy note cell first last lhs mid n z

variable {policy : CellPolicy α β} {note : Rule → β} {cell : Constituent → Option α}

theorem mem_leafOffers {w lhs : String} {position a : Nat} {x : α}
    (ha : g.index? lhs = some a) :
    x ∈ leafOffers policy (g.leafRules note) w position a ↔
      Rule.word lhs w ∈ g.rules ∧ policy.leaf (note (.word lhs w)) position = some x := by
  simp only [leafOffers, List.mem_filterMap, mem_leafRules]
  constructor
  · rintro ⟨_, ⟨lhs', w', a', hr, ha', rfl⟩, hx⟩
    split at hx
    · rename_i h
      obtain ⟨rfl, rfl⟩ := h
      obtain rfl := index?_inj ha ha'
      exact ⟨hr, hx⟩
    · cases hx
  · rintro ⟨hr, hx⟩
    exact ⟨_, ⟨lhs, w, a, hr, ha, rfl⟩, by simpa using hx⟩

/-- What a pair rule offers to a symbol over a span split behind the position `mid`. -/
def pairOffer (g : Grammar) (policy : CellPolicy α β) (note : Rule → β)
    (cell : Constituent → Option α) (first last a mid : Nat) (r : Rule) : Option α :=
  ((pairIndicesBy g.index? r).map fun p => (⟨p, note r⟩ : SplitRule β)) >>=
    splitOffer policy cell first last a mid

/-- The indices that are stored beside the pair rules are theirs. -/
theorem splitRules_eq (note : Rule → β) :
    g.splitRules note = g.pairRules.filterMap fun r =>
      (pairIndicesBy g.index? r).map fun p => ⟨p, note r⟩ := by
  have hzip : (g.pairRules.map (pairIndicesBy g.index?)).zip g.pairRules =
      g.pairRules.map fun r => (pairIndicesBy g.index? r, r) := by
    conv_lhs => rw [← List.map_id g.pairRules, List.map_map, List.zip_map']
    rfl
  rw [splitRules, pairIndices_eq, hzip, List.filterMap_map]
  rfl

theorem splitOffers_eq (first last a : Nat) :
    splitOffers policy (g.splitRules note) cell first last a =
      (List.range' first (last - first)).flatMap fun mid =>
        g.pairRules.filterMap (g.pairOffer policy note cell first last a mid) := by
  simp only [splitOffers, splitRules_eq, List.filterMap_filterMap]
  rfl

theorem offersAt_iff {lhs : String} {first last a mid n : Nat} {x : α}
    (ha : g.index? lhs = some a) :
    g.OffersAt policy note cell first last lhs mid n x ↔ first ≤ mid ∧ mid < last ∧
      ∃ r, g.pairRules[n]? = some r ∧ g.pairOffer policy note cell first last a mid r = some x := by
  constructor
  · rintro ⟨hr, hb, hc, hmid, hmid', hy, hz, hx⟩
    refine ⟨hmid, hmid', _, hr, ?_⟩
    simp [pairOffer, pairIndicesBy, Rule.pair, Rule.children?, ha, hb, hc, splitOffer, hy, hz] at hx ⊢
    exact hx
  · rintro ⟨hmid, hmid', ⟨lhs', rhs⟩, hr, hx⟩
    cases rhs with
    | word w => simp [pairOffer, pairIndicesBy, Rule.children?] at hx
    | pair left right =>
      simp only [pairOffer, pairIndicesBy, Rule.children?, Option.bind_eq_bind,
        Option.map_eq_some_iff, Option.bind_eq_some_iff, Option.pure_def, Option.some.injEq] at hx
      obtain ⟨_, ⟨_, ⟨_, rfl, a', ha', b, hb, c, hc, rfl⟩, rfl⟩, hx⟩ := hx
      simp only [splitOffer] at hx
      split at hx
      · rename_i h
        obtain rfl := h
        obtain rfl := index?_inj ha ha'
        split at hx
        · rename_i y z hy hz
          exact .mk hr hb hc hmid hmid' hy hz hx
        · cases hx
      · cases hx

theorem mem_splitOffers {lhs : String} {first last a : Nat} {x : α}
    (ha : g.index? lhs = some a) :
    x ∈ splitOffers policy (g.splitRules note) cell first last a ↔
      ∃ mid n, g.OffersAt policy note cell first last lhs mid n x := by
  simp only [splitOffers_eq, List.mem_flatMap, List.mem_range'_1, List.mem_filterMap,
    offersAt_iff ha]
  constructor
  · rintro ⟨mid, hmid, r, hr, hx⟩
    obtain ⟨n, hn⟩ := List.mem_iff_getElem?.1 hr
    exact ⟨mid, n, hmid.1, by omega, r, hn, hx⟩
  · rintro ⟨mid, n, hmid, hmid', r, hr, hx⟩
    exact ⟨mid, ⟨hmid, by omega⟩, r, List.mem_of_getElem? hr, hx⟩

theorem exists_first_of_filterMap {γ : Type} {f : γ → Option α} {l : List γ} {x : α}
    {pre post : List α} (h : l.filterMap f = pre ++ x :: post) :
    ∃ (n : Nat) (c : γ), l[n]? = some c ∧ f c = some x ∧
      ∀ n' < n, ∀ c' y, l[n']? = some c' → f c' = some y → y ∈ pre := by
  induction l generalizing pre with
  | nil => simp at h
  | cons c l ih =>
    cases hc : f c with
    | none =>
      rw [List.filterMap_cons_none hc] at h
      obtain ⟨n, d, hd, hx, hfirst⟩ := ih h
      refine ⟨n + 1, d, hd, hx, fun n' hn' c' y hc' hy => ?_⟩
      cases n' with
      | zero => obtain rfl : c = c' := by simpa using hc'
                rw [hc] at hy; cases hy
      | succ n' => exact hfirst n' (by omega) c' y hc' hy
    | some z =>
      rw [List.filterMap_cons_some hc] at h
      cases pre with
      | nil =>
        obtain ⟨rfl, -⟩ := List.cons.inj h
        exact ⟨0, c, rfl, hc, fun n' hn' => absurd hn' (Nat.not_lt_zero n')⟩
      | cons p pre =>
        obtain ⟨rfl, hl⟩ := List.cons.inj h
        obtain ⟨n, d, hd, hx, hfirst⟩ := ih hl
        refine ⟨n + 1, d, hd, hx, fun n' hn' c' y hc' hy => ?_⟩
        cases n' with
        | zero => obtain rfl : c = c' := by simpa using hc'
                  rw [hc] at hy
                  exact Option.some.inj hy ▸ List.mem_cons_self
        | succ n' => exact List.mem_cons_of_mem _ (hfirst n' (by omega) c' y hc' hy)

theorem exists_cut_of_flatMap {γ : Type} {f : γ → List α} {l : List γ} {x : α}
    {pre post : List α} (h : l.flatMap f = pre ++ x :: post) :
    ∃ front c back pre' post', l = front ++ c :: back ∧ f c = pre' ++ x :: post' ∧
      pre = front.flatMap f ++ pre' := by
  induction l generalizing pre with
  | nil => simp at h
  | cons c l ih =>
    rw [List.flatMap_cons, List.append_eq_append_iff] at h
    rcases h with ⟨as, rfl, h⟩ | ⟨bs, hc, h⟩
    · obtain ⟨front, d, back, pre', post', rfl, hd, rfl⟩ := ih h
      exact ⟨c :: front, d, back, pre', post', rfl, hd, by simp⟩
    · cases bs with
      | nil =>
        obtain ⟨front, d, back, pre', post', rfl, hd, hpre⟩ := ih
          (show l.flatMap f = [] ++ x :: post from h.symm)
        refine ⟨c :: front, d, back, pre', post', rfl, hd, ?_⟩
        rw [List.flatMap_cons, List.append_assoc, ← hpre, hc, List.append_nil, List.append_nil]
      | cons b bs =>
        obtain ⟨rfl, -⟩ := List.cons.inj h
        exact ⟨[], c, l, pre, bs, rfl, hc, rfl⟩

/-- Offers come in the order of their splits, at one split in the order of their rules. -/
theorem offersAt_of_splitOffers_eq {lhs : String} {first last a : Nat} {x : α} {pre post : List α}
    (ha : g.index? lhs = some a)
    (h : splitOffers policy (g.splitRules note) cell first last a = pre ++ x :: post) :
    ∃ mid n, g.OffersAt policy note cell first last lhs mid n x ∧
      ∀ mid' n' y, g.OffersAt policy note cell first last lhs mid' n' y →
        mid' < mid ∨ mid' = mid ∧ n' < n → y ∈ pre := by
  rw [splitOffers_eq] at h
  obtain ⟨front, mid, back, pre', post', hmids, hmid, rfl⟩ := exists_cut_of_flatMap h
  obtain ⟨n, r, hr, hx, hfirst⟩ := exists_first_of_filterMap hmid
  have hmem : mid ∈ List.range' first (last - first) := hmids ▸ by simp
  have hsorted : (front ++ mid :: back).Pairwise (· < ·) :=
    hmids ▸ List.pairwise_lt_range'
  rw [List.mem_range'_1] at hmem
  refine ⟨mid, n, (offersAt_iff ha).2 ⟨hmem.1, by omega, r, hr, hx⟩, ?_⟩
  intro mid' n' y hy hearlier
  obtain ⟨hmid', hlast', r', hr', hy⟩ := (offersAt_iff ha).1 hy
  rcases hearlier with hlt | ⟨rfl, hn⟩
  · have hmem' : mid' ∈ front ++ mid :: back := by
      rw [← hmids, List.mem_range'_1]
      omega
    -- what stands behind `mid` is greater, so `mid'` stands before it
    have hfront : mid' ∈ front := by
      rw [List.pairwise_append, List.pairwise_cons] at hsorted
      rcases List.mem_append.1 hmem' with hmem' | hmem'
      · exact hmem'
      · rcases List.mem_cons.1 hmem' with rfl | hmem'
        · omega
        · have := hsorted.2.1.1 mid' hmem'
          omega
    exact List.mem_append_left _ (List.mem_flatMap.2
      ⟨mid', hfront, List.mem_filterMap.2 ⟨r', List.mem_of_getElem? hr', hy⟩⟩)
  · exact List.mem_append_right _ (hfirst n' hn r' y hr' hy)

end TabularParsing.Grammar
