import Mathlib.Data.List.Basic
import TabularParsing.Span.Chart

/-!
# The cells of a filled chart

A chart is filled by one offer after the other, and a cell keeps the one that no later offer beats.
What a cell of the finished chart holds is read off the offers made to it: for a single word those
of the word rules, for a longer span those of the pair rules over the cells that the finished chart
holds for shorter spans.

## Main statements

* `Grammar.get?_chart_leaf`: the cells of single words.
* `Grammar.get?_chart_split`: the cells of longer spans.
-/
namespace TabularParsing

variable {α β : Type}

/-- What a cell holds after an offer. -/
def better (beats : α → α → Bool) : Option α → α → Option α
  | none, a => some a
  | some b, a => if beats a b then some a else some b

/-- What an empty cell holds after a list of offers. -/
def pick (beats : α → α → Bool) (as : List α) : Option α := as.foldl (better beats) none

@[simp] theorem pick_nil (beats : α → α → Bool) : pick beats [] = none := rfl

theorem foldl_better_some (beats : α → α → Bool) (as : List α) (b : α) :
    ∃ c ∈ b :: as, as.foldl (better beats) (some b) = some c := by
  induction as generalizing b with
  | nil => exact ⟨b, by simp, rfl⟩
  | cons a as ih =>
    rw [List.foldl_cons, better]
    split
    · obtain ⟨c, hc, h⟩ := ih a
      exact ⟨c, List.mem_cons_of_mem _ hc, h⟩
    · obtain ⟨c, hc, h⟩ := ih b
      refine ⟨c, ?_, h⟩
      rcases List.mem_cons.1 hc with rfl | hc
      · exact List.mem_cons_self
      · exact List.mem_cons_of_mem _ (List.mem_cons_of_mem _ hc)

/-- A cell holds one of the offers, if any was made. -/
theorem mem_of_pick {beats : α → α → Bool} {as : List α} {a : α} (h : pick beats as = some a) :
    a ∈ as := by
  cases as with
  | nil => cases h
  | cons b as =>
    obtain ⟨c, hc, hfold⟩ := foldl_better_some beats as b
    obtain rfl : c = a := Option.some.inj (hfold.symm.trans h)
    exact hc

theorem isSome_pick {beats : α → α → Bool} {as : List α} :
    (pick beats as).isSome = true ↔ as ≠ [] := by
  cases as with
  | nil => simp
  | cons b as =>
    obtain ⟨c, -, hfold⟩ := foldl_better_some beats as b
    have : pick beats (b :: as) = some c := hfold
    simp [this]

/-- What the word rules offer to a symbol at a position. -/
def leafOffers (policy : CellPolicy α β) (rules : List (LeafRule β)) (word : String)
    (position symbol : Nat) : List α :=
  rules.filterMap fun r =>
    if r.word = word ∧ r.lhs = symbol then policy.leaf r.note position else none

/-- What a pair rule offers to a symbol over a span split behind the position `mid`. -/
def splitOffer (policy : CellPolicy α β) (cell : Constituent → Option α)
    (first last symbol mid : Nat) (r : SplitRule β) : Option α :=
  if r.indices.lhs = symbol then
    match cell ⟨first, mid, r.indices.left⟩, cell ⟨mid + 1, last, r.indices.right⟩ with
    | some a, some b =>
      policy.split r.note ⟨first, mid, r.indices.left⟩ a ⟨mid + 1, last, r.indices.right⟩ b
    | _, _ => none
  else none

/-- What the pair rules offer to a symbol over a span: splits from the left, at each the rules in
their order. -/
def splitOffers (policy : CellPolicy α β) (rules : List (SplitRule β))
    (cell : Constituent → Option α) (first last symbol : Nat) : List α :=
  (List.range' first (last - first)).flatMap fun mid =>
    rules.filterMap (splitOffer policy cell first last symbol mid)

namespace SpanMap

variable {policy : CellPolicy α β} {t : SpanMap α} {k l : Constituent}

@[simp] theorem len_offer (beats : α → α → Bool) (t : SpanMap α) (k : Constituent)
    (o : Option α) : (t.offer beats k o).len = t.len := by
  unfold offer; repeat' split
  all_goals simp

@[simp] theorem symbols_offer (beats : α → α → Bool) (t : SpanMap α) (k : Constituent)
    (o : Option α) : (t.offer beats k o).symbols = t.symbols := by
  unfold offer; repeat' split
  all_goals simp

theorem get?_offer_of_ne (beats : α → α → Bool) (o : Option α) (h : k ≠ l) :
    (t.offer beats k o).get? l = t.get? l := by
  cases o with
  | none => simp [offer]
  | some a =>
    cases hget : t.get? k with
    | none => simp [offer, hget, get?_set, h]
    | some b => by_cases hb : beats a b <;> simp [offer, hget, hb, get?_set, h]

theorem get?_offer_self (beats : α → α → Bool) (o : Option α) (hk : k.Valid t.len t.symbols) :
    (t.offer beats k o).get? k = o.toList.foldl (better beats) (t.get? k) := by
  cases o with
  | none => simp [offer]
  | some a =>
    cases hget : t.get? k with
    | none => simp [offer, hget, get?_set, hk, better]
    | some b => by_cases hb : beats a b <;> simp [offer, hget, hb, get?_set, hk, better]

/-- Both tables have cells for the same keys. -/
def SameShape (t u : SpanMap α) : Prop := t.len = u.len ∧ t.symbols = u.symbols

theorem SameShape.refl (t : SpanMap α) : SameShape t t := ⟨rfl, rfl⟩

theorem SameShape.trans {t u v : SpanMap α} (h : SameShape t u) (h' : SameShape u v) :
    SameShape t v := ⟨h.1.trans h'.1, h.2.trans h'.2⟩

theorem SameShape.valid {t u : SpanMap α} (h : SameShape u t) (hl : l.Valid t.len t.symbols) :
    l.Valid u.len u.symbols := by rw [h.1, h.2]; exact hl

theorem sameShape_foldl {γ : Type} {f : SpanMap α → γ → SpanMap α}
    (hf : ∀ t x, SameShape (f t x) t) (xs : List γ) (t : SpanMap α) :
    SameShape (xs.foldl f t) t := by
  induction xs generalizing t with
  | nil => exact .refl t
  | cons x xs ih => exact (ih (f t x)).trans (hf t x)

theorem sameShape_fillLeaf (policy : CellPolicy α β) (rules : List (LeafRule β)) (t : SpanMap α)
    (word : String) (position : Nat) : SameShape (t.fillLeaf policy rules word position) t := by
  refine sameShape_foldl (fun t r => ?_) rules t
  split
  · exact ⟨len_offer .., symbols_offer ..⟩
  · exact .refl t

theorem sameShape_fillLeaves (policy : CellPolicy α β) (rules : List (LeafRule β))
    (tokens : List String) (t : SpanMap α) : SameShape (t.fillLeaves policy rules tokens) t :=
  sameShape_foldl (fun t (p : String × Nat) => sameShape_fillLeaf policy rules t p.1 p.2) _ t

theorem sameShape_fillSplit (policy : CellPolicy α β) (first mid last : Nat) (t : SpanMap α)
    (r : SplitRule β) : SameShape (t.fillSplit policy first mid last r) t := by
  simp only [fillSplit]
  split
  · exact ⟨len_offer .., symbols_offer ..⟩
  · exact .refl t

theorem sameShape_fillSpan (policy : CellPolicy α β) (rules : List (SplitRule β)) (t : SpanMap α)
    (span : Nat × Nat) : SameShape (t.fillSpan policy rules span) t :=
  sameShape_foldl (fun t mid => sameShape_foldl
    (fun t r => sameShape_fillSplit policy span.1 mid span.2 t r) rules t) _ t

/-- Steps that leave a cell alone leave it alone together. -/
theorem get?_foldl_of_frame {γ : Type} {f : SpanMap α → γ → SpanMap α} {xs : List γ}
    (hf : ∀ x ∈ xs, ∀ t : SpanMap α, (f t x).get? l = t.get? l) :
    (xs.foldl f t).get? l = t.get? l := by
  induction xs generalizing t with
  | nil => rfl
  | cons x xs ih =>
    rw [List.foldl_cons, ih fun y hy => hf y (List.mem_cons_of_mem _ hy)]
    exact hf x List.mem_cons_self t

/-! ## Single words -/

theorem get?_fillLeaf_of_ne (rules : List (LeafRule β)) (word : String) {position : Nat}
    (h : ¬(l.first = position ∧ l.last = position)) :
    (t.fillLeaf policy rules word position).get? l = t.get? l := by
  refine get?_foldl_of_frame fun r _ t => ?_
  split
  · exact get?_offer_of_ne _ _ fun hk => h ⟨hk ▸ rfl, hk ▸ rfl⟩
  · rfl

theorem get?_fillLeaf (rules : List (LeafRule β)) (word : String) {position symbol : Nat}
    (hvalid : Constituent.Valid ⟨position, position, symbol⟩ t.len t.symbols) :
    (t.fillLeaf policy rules word position).get? ⟨position, position, symbol⟩ =
      (leafOffers policy rules word position symbol).foldl (better policy.beats)
        (t.get? ⟨position, position, symbol⟩) := by
  unfold fillLeaf leafOffers
  induction rules generalizing t with
  | nil => rfl
  | cons r rules ih =>
    rw [List.foldl_cons]
    by_cases hw : r.word = word
    · rw [if_pos hw, ih (by simpa using hvalid)]
      by_cases hsym : r.lhs = symbol
      · subst hsym
        rw [get?_offer_self _ _ hvalid]
        cases hleaf : policy.leaf r.note position <;> simp [hw, hleaf]
      · rw [get?_offer_of_ne _ _ (by simp [hsym])]
        simp [hw, hsym]
    · rw [if_neg hw, ih hvalid]
      simp [hw]

theorem get?_fillLeaves_of_ne (rules : List (LeafRule β)) (tokens : List String)
    (h : l.first ≠ l.last) : (t.fillLeaves policy rules tokens).get? l = t.get? l :=
  get?_foldl_of_frame fun _ _ _ => get?_fillLeaf_of_ne rules _ (by omega)

theorem get?_fillLeaves (rules : List (LeafRule β)) {tokens : List String} {i symbol : Nat}
    {word : String} (hw : tokens[i]? = some word)
    (hvalid : Constituent.Valid ⟨i + 1, i + 1, symbol⟩ t.len t.symbols) :
    (t.fillLeaves policy rules tokens).get? ⟨i + 1, i + 1, symbol⟩ =
      (leafOffers policy rules word (i + 1) symbol).foldl (better policy.beats)
        (t.get? ⟨i + 1, i + 1, symbol⟩) := by
  obtain ⟨hi, hw⟩ := List.getElem?_eq_some_iff.1 hw
  have hcut : tokens.zipIdx 1 = (tokens.take i).zipIdx 1 ++
      (word, i + 1) :: (tokens.drop (i + 1)).zipIdx (i + 2) := by
    conv => lhs; rw [← List.take_append_drop i tokens, List.drop_eq_getElem_cons hi]
    rw [List.zipIdx_append, List.zipIdx_cons, hw, List.length_take, Nat.min_eq_left (by omega)]
    simp only [Nat.add_comm 1 i, Nat.add_assoc]
  -- only the offers for the word at position `i + 1` reach the cell
  have hframe : ∀ (u : SpanMap α) (ps : List (String × Nat)), (∀ p ∈ ps, p.2 ≠ i + 1) →
      (ps.foldl (fun t p => t.fillLeaf policy rules p.1 p.2) u).get? ⟨i + 1, i + 1, symbol⟩ =
        u.get? ⟨i + 1, i + 1, symbol⟩ := by
    intro u ps hps
    refine get?_foldl_of_frame fun p hp t => get?_fillLeaf_of_ne rules _ ?_
    have := hps p hp
    simp only [not_and]
    omega
  have hshape := sameShape_fillLeaves policy rules (tokens.take i) t
  unfold fillLeaves at hshape ⊢
  rw [hcut, List.foldl_append, List.foldl_cons, hframe, get?_fillLeaf _ _ (hshape.valid hvalid),
    hframe]
  · intro p hp
    have := (List.mem_zipIdx hp).2.1
    simp only [List.length_take] at this
    omega
  · intro p hp
    have := (List.mem_zipIdx hp).1
    omega

/-! ## Longer spans -/

variable {first mid last symbol : Nat} {cell : Constituent → Option α}

theorem get?_fillSplit_of_ne {r : SplitRule β} (h : ¬(l.first = first ∧ l.last = last)) :
    (t.fillSplit policy first mid last r).get? l = t.get? l := by
  simp only [fillSplit]
  split
  · exact get?_offer_of_ne _ _ fun hk => h ⟨hk ▸ rfl, hk ▸ rfl⟩
  · rfl

theorem get?_fillSpan_of_ne (rules : List (SplitRule β)) {span : Nat × Nat}
    (h : ¬(l.first = span.1 ∧ l.last = span.2)) :
    (t.fillSpan policy rules span).get? l = t.get? l :=
  get?_foldl_of_frame fun _ _ _ => get?_foldl_of_frame fun _ _ _ => get?_fillSplit_of_ne h

/-- The table holds for shorter spans within a span what `cell` says. -/
def AgreesBelow (t : SpanMap α) (cell : Constituent → Option α) (first last : Nat) : Prop :=
  ∀ k : Constituent, k.last - k.first < last - first → t.get? k = cell k

theorem AgreesBelow.of_frame {u : SpanMap α} (h : t.AgreesBelow cell first last)
    (hframe : ∀ k : Constituent, ¬(k.first = first ∧ k.last = last) → u.get? k = t.get? k) :
    u.AgreesBelow cell first last := fun k hk => by
  rw [hframe k (by omega)]
  exact h k hk

theorem get?_fillSplit {r : SplitRule β} (hmid : first ≤ mid) (hmid' : mid < last)
    (hvalid : Constituent.Valid ⟨first, last, symbol⟩ t.len t.symbols)
    (hcell : t.AgreesBelow cell first last) :
    (t.fillSplit policy first mid last r).get? ⟨first, last, symbol⟩ =
      (splitOffer policy cell first last symbol mid r).toList.foldl (better policy.beats)
        (t.get? ⟨first, last, symbol⟩) := by
  have hleft := hcell ⟨first, mid, r.indices.left⟩ (by simp only; omega)
  have hright := hcell ⟨mid + 1, last, r.indices.right⟩ (by simp only; omega)
  simp only [fillSplit, splitOffer, hleft, hright]
  cases cell ⟨first, mid, r.indices.left⟩ with
  | none => simp
  | some a =>
    cases cell ⟨mid + 1, last, r.indices.right⟩ with
    | none => simp
    | some b =>
      by_cases hsym : r.indices.lhs = symbol
      · subst hsym
        simpa using get?_offer_self _ _ hvalid
      · simpa [hsym] using get?_offer_of_ne _ _ (by simp [hsym])

theorem get?_fillSplits (rules : List (SplitRule β)) (hmid : first ≤ mid) (hmid' : mid < last)
    (hvalid : Constituent.Valid ⟨first, last, symbol⟩ t.len t.symbols)
    (hcell : t.AgreesBelow cell first last) :
    (rules.foldl (fillSplit policy first mid last) t).get? ⟨first, last, symbol⟩ =
      (rules.filterMap (splitOffer policy cell first last symbol mid)).foldl
        (better policy.beats) (t.get? ⟨first, last, symbol⟩) := by
  induction rules generalizing t with
  | nil => rfl
  | cons r rules ih =>
    rw [List.foldl_cons, ih ((sameShape_fillSplit ..).valid hvalid)
      (hcell.of_frame fun k hk => get?_fillSplit_of_ne hk), get?_fillSplit hmid hmid' hvalid hcell]
    cases hoffer : splitOffer policy cell first last symbol mid r <;> simp [hoffer]

theorem get?_fillSpan (rules : List (SplitRule β))
    (hvalid : Constituent.Valid ⟨first, last, symbol⟩ t.len t.symbols)
    (hcell : t.AgreesBelow cell first last) :
    (t.fillSpan policy rules (first, last)).get? ⟨first, last, symbol⟩ =
      (splitOffers policy rules cell first last symbol).foldl (better policy.beats)
        (t.get? ⟨first, last, symbol⟩) := by
  have hmids : ∀ mid ∈ List.range' first (last - first), first ≤ mid ∧ mid < last := by
    intro mid hmid
    rw [List.mem_range'_1] at hmid
    omega
  unfold fillSpan splitOffers
  rw [List.foldl_flatMap]
  generalize List.range' first (last - first) = mids at hmids
  induction mids generalizing t with
  | nil => rfl
  | cons mid mids ih =>
    obtain ⟨hmid, hmid'⟩ := hmids mid List.mem_cons_self
    rw [List.foldl_cons, List.foldl_cons, ih ((sameShape_foldl
      (fun t r => sameShape_fillSplit policy first mid last t r) rules t).valid hvalid)
      (hcell.of_frame fun k hk => get?_foldl_of_frame fun _ _ _ => get?_fillSplit_of_ne hk)
      fun m hm => hmids m (List.mem_cons_of_mem _ hm),
      get?_fillSplits rules hmid hmid' hvalid hcell]

end SpanMap

/-! ## The finished chart -/

theorem mem_spansUpTo {n i j : Nat} : (i, j) ∈ spansUpTo n ↔ 1 ≤ i ∧ i < j ∧ j ≤ n := by
  simp only [spansUpTo, List.mem_flatMap, List.mem_map, List.mem_range'_1, Prod.mk.injEq]
  constructor
  · rintro ⟨width, hwidth, first, hfirst, rfl, rfl⟩
    omega
  · intro h
    exact ⟨j + 1 - i, by omega, i, by omega, rfl, by omega⟩

/-- Spans come once each, shorter ones first. -/
theorem pairwise_spansUpTo (n : Nat) :
    (spansUpTo n).Pairwise fun p q => p ≠ q ∧ p.2 - p.1 ≤ q.2 - q.1 := by
  have hrange : ∀ s m : Nat, (List.range' s m).Pairwise (· < ·) := fun _ _ =>
    List.pairwise_lt_range'
  rw [spansUpTo, List.pairwise_flatMap]
  constructor
  · intro width hwidth
    rw [List.pairwise_map]
    refine (hrange 1 _).imp fun {i j} hij => ?_
    simp only [ne_eq, Prod.mk.injEq]
    omega
  · refine (hrange 2 _).imp fun {v w} hvw => ?_
    simp only [List.mem_map, List.mem_range'_1]
    rintro _ ⟨i, hi, rfl⟩ _ ⟨j, hj, rfl⟩
    simp only [ne_eq, Prod.mk.injEq]
    omega

namespace Grammar

variable (g : Grammar) (policy : CellPolicy α β) (note : Rule → β) (tokens : List String)

theorem sameShape_fillSpans (rules : List (SplitRule β)) (spans : List (Nat × Nat))
    (t : SpanMap α) : (spans.foldl (SpanMap.fillSpan policy rules) t).SameShape t :=
  SpanMap.sameShape_foldl (SpanMap.sameShape_fillSpan policy rules) spans t

/-- A cell that no later span touches keeps what it holds. -/
theorem get?_fillSpans_of_notMem {rules : List (SplitRule β)} {spans : List (Nat × Nat)}
    {t : SpanMap α} {k : Constituent} (h : (k.first, k.last) ∉ spans) :
    (spans.foldl (SpanMap.fillSpan policy rules) t).get? k = t.get? k :=
  SpanMap.get?_foldl_of_frame fun span hspan _ => SpanMap.get?_fillSpan_of_ne rules
    fun hk => h (by rw [hk.1, hk.2]; exact hspan)

/-- The table in which only the cells of single words are filled. -/
def leafChart : SpanMap α :=
  (SpanMap.empty tokens.length g.nonterminals.length).fillLeaves policy (g.leafRules note) tokens

theorem sameShape_leafChart :
    (g.leafChart policy note tokens).SameShape
      (SpanMap.empty tokens.length g.nonterminals.length) :=
  SpanMap.sameShape_fillLeaves ..

theorem sameShape_chart :
    (g.chart policy note tokens).SameShape
      (SpanMap.empty tokens.length g.nonterminals.length) :=
  (sameShape_fillSpans ..).trans (sameShape_leafChart ..)

variable {policy note tokens}

/-- The cell of a word holds the pick of what the word rules offer. -/
theorem get?_chart_leaf {i symbol : Nat} {word : String} (hw : tokens[i]? = some word)
    (hsymbol : symbol < g.nonterminals.length) :
    (g.chart policy note tokens).get? ⟨i + 1, i + 1, symbol⟩ =
      pick policy.beats (leafOffers policy (g.leafRules note) word (i + 1) symbol) := by
  obtain ⟨hi, -⟩ := List.getElem?_eq_some_iff.1 hw
  have hvalid : Constituent.Valid ⟨i + 1, i + 1, symbol⟩ tokens.length g.nonterminals.length :=
    ⟨by simp, by simp, hi, hsymbol⟩
  rw [chart, get?_fillSpans_of_notMem _ (by simp [mem_spansUpTo]),
    SpanMap.get?_fillLeaves _ hw hvalid, SpanMap.get?_empty, pick]

/-- The cell of a longer span holds the pick of what the pair rules offer over the cells of the
finished chart. -/
theorem get?_chart_split {first last symbol : Nat} (hfirst : 1 ≤ first) (hlt : first < last)
    (hlast : last ≤ tokens.length) (hsymbol : symbol < g.nonterminals.length) :
    (g.chart policy note tokens).get? ⟨first, last, symbol⟩ =
      pick policy.beats (splitOffers policy (g.splitRules note)
        (g.chart policy note tokens).get? first last symbol) := by
  set cell := (g.chart policy note tokens).get? with hcell
  obtain ⟨pre, post, hspans⟩ := List.append_of_mem (mem_spansUpTo.2 ⟨hfirst, hlt, hlast⟩)
  have hsorted := hspans ▸ pairwise_spansUpTo tokens.length
  rw [List.pairwise_append, List.pairwise_cons] at hsorted
  obtain ⟨-, ⟨hpost, -⟩, hpre⟩ := hsorted
  -- the table just before the span is worked on
  obtain ⟨t, ht⟩ : ∃ t, t = pre.foldl (SpanMap.fillSpan policy (g.splitRules note))
    (g.leafChart policy note tokens) := ⟨_, rfl⟩
  have hchart : cell = (post.foldl (SpanMap.fillSpan policy (g.splitRules note))
      (t.fillSpan policy (g.splitRules note) (first, last))).get? := by
    rw [hcell, chart, hspans, List.foldl_append, List.foldl_cons, ht, leafChart]
  have hshape : t.SameShape (SpanMap.empty tokens.length g.nonterminals.length) :=
    ht ▸ (sameShape_fillSpans ..).trans (sameShape_leafChart ..)
  have hvalid : Constituent.Valid ⟨first, last, symbol⟩ t.len t.symbols :=
    hshape.valid ⟨hfirst, Nat.le_of_lt hlt, hlast, hsymbol⟩
  have hagrees : t.AgreesBelow cell first last := by
    intro k hk
    rw [hchart, get?_fillSpans_of_notMem _ fun hmem => by have := (hpost _ hmem).2; omega,
      SpanMap.get?_fillSpan_of_ne _ (by simp only; omega)]
  have hfree : t.get? ⟨first, last, symbol⟩ = none := by
    rw [ht, get?_fillSpans_of_notMem _ fun hmem => (hpre _ hmem _ List.mem_cons_self).1 rfl,
      leafChart,
      SpanMap.get?_fillLeaves_of_ne _ _ (by simp only; omega), SpanMap.get?_empty]
  conv => lhs; rw [hchart]
  rw [get?_fillSpans_of_notMem _ fun hmem => (hpost _ hmem).1 rfl,
    SpanMap.get?_fillSpan _ hvalid hagrees, hfree, pick]

end Grammar

end TabularParsing
