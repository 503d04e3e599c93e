import Mathlib.Data.List.Forall2
import TabularParsing.Proofs.Span.Derivability

/-!
# Charts that correspond

Two policies that make corresponding offers over corresponding cells, and let corresponding offers
win, fill charts that correspond cell by cell. What is asked of the second policy is asked over the
cells of the first chart alone.

## Main definition

* `Grammar.Corresponding`: the policies make corresponding offers.

## Main statement

* `Grammar.Corresponding.get?_chart`: the charts correspond.
-/
namespace TabularParsing

variable {α α' β β' : Type} {R : α → α' → Prop}

section Lists

variable {γ : Type} {l : List γ}

theorem forall₂_filterMap {f : γ → Option α} {f' : γ → Option α'}
    (h : ∀ c ∈ l, Option.Rel R (f c) (f' c)) :
    List.Forall₂ R (l.filterMap f) (l.filterMap f') := by
  have hsame : List.Forall₂ (fun c d => c = d ∧ c ∈ l) l l :=
    List.forall₂_same.2 fun c hc => ⟨rfl, hc⟩
  refine List.rel_filterMap ?_ hsame
  rintro c _ ⟨rfl, hc⟩
  exact h c hc

theorem forall₂_flatMap {f : γ → List α} {f' : γ → List α'}
    (h : ∀ c ∈ l, List.Forall₂ R (f c) (f' c)) :
    List.Forall₂ R (l.flatMap f) (l.flatMap f') := by
  have hsame : List.Forall₂ (fun c d => c = d ∧ c ∈ l) l l :=
    List.forall₂_same.2 fun c hc => ⟨rfl, hc⟩
  refine List.rel_flatMap hsame ?_
  rintro c _ ⟨rfl, hc⟩
  exact h c hc

end Lists

section Options

variable {o : Option α} {o' : Option α'}

theorem isSome_eq_of_rel (h : Option.Rel R o o') : o.isSome = o'.isSome := by
  cases h <;> rfl

theorem map_eq_of_rel {f : α → α'} (h : Option.Rel R o o')
    (hR : ∀ {a : α} {a' : α'}, R a a' → f a = a') : o.map f = o' := by
  cases h with
  | none => rfl
  | some hab => exact congrArg some (hR hab)

end Options

/-- Corresponding lists of offers leave corresponding values in a cell. -/
theorem rel_pick {beats : α → α → Bool} {beats' : α' → α' → Bool} {as : List α} {as' : List α'}
    (hbetter : ∀ {a b : α} {a' b' : α'}, R a a' → R b b' →
      R (if beats a b then a else b) (if beats' a' b' then a' else b'))
    (h : List.Forall₂ R as as') : Option.Rel R (pick beats as) (pick beats' as') := by
  have hfold : ∀ {o : Option α} {o' : Option α'}, Option.Rel R o o' →
      Option.Rel R (as.foldl (better beats) o) (as'.foldl (better beats') o') := by
    induction h with
    | nil => exact id
    | cons ha _ ih =>
      intro o o' ho
      refine ih ?_
      cases ho with
      | none => exact .some ha
      | some hb =>
        have hwins := hbetter ha hb
        simp only [better]
        split <;> split <;> simp_all
  exact hfold .none

/-- What is made of two corresponding cells corresponds if it does wherever both are set. -/
theorem rel_both {o p : Option α} {o' p' : Option α'} {f : α → α → Option α}
    {f' : α' → α' → Option α'} : Option.Rel R o o' → Option.Rel R p p' →
    (∀ {x y : α} {x' y' : α'}, o = some x → p = some y → R x x' → R y y' →
      Option.Rel R (f x y) (f' x' y')) →
    Option.Rel R
      (match o, p with
        | some x, some y => f x y
        | _, _ => none)
      (match o', p' with
        | some x', some y' => f' x' y'
        | _, _ => none) := by
  intro ho hp h
  cases ho with
  | none => exact .none
  | some hx =>
    cases hp with
    | none => exact .none
    | some hy => exact h rfl rfl hx hy

namespace Grammar

variable {g : Grammar} {tokens : List String}
variable {policy : CellPolicy α β} {note : Rule → β}
variable {policy' : CellPolicy α' β'} {note' : Rule → β'}

/-- A chart has no cells outside the sentence. -/
theorem get?_chart_of_not_valid {k : Constituent}
    (h : ¬k.Valid tokens.length g.nonterminals.length) :
    (g.chart policy note tokens).get? k = none := by
  rw [Option.eq_none_iff_forall_ne_some]
  intro x hx
  exact h (Admits.valid_of_get?_chart hx)

/-- What a word rule offers to a symbol at a position. -/
def wordOffer (g : Grammar) (policy : CellPolicy α β) (note : Rule → β) (word : String)
    (position a : Nat) (r : Rule) : Option α := do
  let q : LeafRule β := ⟨← g.index? r.lhs, ← r.word?, note r⟩
  if q.word = word ∧ q.lhs = a then policy.leaf q.note position else none

theorem leafOffers_eq (word : String) (position a : Nat) :
    leafOffers policy (g.leafRules note) word position a =
      g.wordRules.filterMap (g.wordOffer policy note word position a) := by
  simp only [leafOffers, leafRules, List.filterMap_filterMap]
  refine List.filterMap_congr fun r _ => ?_
  cases hindex : g.index? r.lhs <;> cases hword : r.word? <;>
    simp [wordOffer, hindex, hword]

theorem of_pairIndicesBy_eq_some {r : Rule} {p : PairIndices} (h : pairIndicesBy g.index? r = some p) :
    ∃ lhs left right, r = .pair lhs left right ∧ g.index? left = some p.left ∧
      g.index? right = some p.right := by
  obtain ⟨lhs, rhs⟩ := r
  cases rhs with
  | word w => simp [pairIndicesBy, Rule.children?] at h
  | pair left right =>
    obtain ⟨-, hb, hc⟩ := pairIndicesBy_eq_some_iff.1 h
    exact ⟨lhs, left, right, rfl, hb, hc⟩

/-- Over corresponding cells, the first policy's taken from its chart, the two policies make
corresponding offers, and of corresponding offers corresponding ones win. -/
structure Corresponding (g : Grammar) (tokens : List String) (policy : CellPolicy α β)
    (note : Rule → β) (policy' : CellPolicy α' β') (note' : Rule → β') (R : α → α' → Prop) :
    Prop where
  leaf : ∀ r ∈ g.rules, ∀ i, Option.Rel R (policy.leaf (note r) i) (policy'.leaf (note' r) i)
  split : ∀ {lhs left right : String} {first mid last b c : Nat} {x y : α} {x' y' : α'},
    .pair lhs left right ∈ g.rules → g.index? left = some b → g.index? right = some c →
    (g.chart policy note tokens).get? ⟨first, mid, b⟩ = some x →
    (g.chart policy note tokens).get? ⟨mid + 1, last, c⟩ = some y → R x x' → R y y' →
    Option.Rel R
      (policy.split (note (.pair lhs left right)) ⟨first, mid, b⟩ x ⟨mid + 1, last, c⟩ y)
      (policy'.split (note' (.pair lhs left right)) ⟨first, mid, b⟩ x' ⟨mid + 1, last, c⟩ y')
  better : ∀ {a b : α} {a' b' : α'}, R a a' → R b b' →
    R (if policy.beats a b then a else b) (if policy'.beats a' b' then a' else b')

namespace Corresponding

theorem leafOffers (h : g.Corresponding tokens policy note policy' note' R) (word : String)
    (position a : Nat) :
    List.Forall₂ R (leafOffers policy (g.leafRules note) word position a)
      (TabularParsing.leafOffers policy' (g.leafRules note') word position a) := by
  rw [leafOffers_eq, leafOffers_eq]
  refine forall₂_filterMap fun r hr => ?_
  have hrule : r ∈ g.rules := (mem_wordRules.1 hr).1
  cases hindex : g.index? r.lhs <;> cases hword : r.word? <;>
    simp only [wordOffer, hindex, hword, Option.bind_eq_bind, Option.bind_none, Option.bind_some,
      Option.Rel.none]
  split
  · exact h.leaf r hrule position
  · exact .none

theorem splitOffers (h : g.Corresponding tokens policy note policy' note' R)
    {cell' : Constituent → Option α'} {first last a : Nat}
    (hcells : ∀ {first' last' b : Nat}, last' - first' < last - first →
      Option.Rel R ((g.chart policy note tokens).get? ⟨first', last', b⟩)
        (cell' ⟨first', last', b⟩)) :
    List.Forall₂ R
      (splitOffers policy (g.splitRules note) (g.chart policy note tokens).get? first last a)
      (TabularParsing.splitOffers policy' (g.splitRules note') cell' first last a) := by
  rw [splitOffers_eq, splitOffers_eq]
  refine forall₂_flatMap fun mid hmid => forall₂_filterMap fun r hr => ?_
  rw [List.mem_range'_1] at hmid
  unfold pairOffer
  cases hindices : pairIndicesBy g.index? r with
  | none => exact .none
  | some p =>
    obtain ⟨lhs, left, right, rfl, hb, hc⟩ := of_pairIndicesBy_eq_some hindices
    have hrule : Rule.pair lhs left right ∈ g.rules := (mem_pairRules.1 hr).1
    have hleft : Option.Rel R ((g.chart policy note tokens).get? ⟨first, mid, p.left⟩)
        (cell' ⟨first, mid, p.left⟩) := hcells (by omega)
    have hright : Option.Rel R ((g.chart policy note tokens).get? ⟨mid + 1, last, p.right⟩)
        (cell' ⟨mid + 1, last, p.right⟩) := hcells (by omega)
    simp only [Option.map_some, Option.bind_eq_bind, Option.bind_some, splitOffer]
    split
    · exact rel_both hleft hright fun hx hy hxx' hyy' => h.split hrule hb hc hx hy hxx' hyy'
    · exact .none

/-- Corresponding policies fill corresponding charts. -/
theorem get?_chart (h : g.Corresponding tokens policy note policy' note' R) (k : Constituent) :
    Option.Rel R ((g.chart policy note tokens).get? k) ((g.chart policy' note' tokens).get? k) := by
  obtain ⟨first, last, a⟩ := k
  by_cases hvalid : Constituent.Valid ⟨first, last, a⟩ tokens.length g.nonterminals.length
  · induction hn : last - first using Nat.strongRecOn generalizing first last a with
    | ind n ih =>
      obtain ⟨hfirst, hle, hlast, ha⟩ := hvalid
      simp only at hfirst hle hlast ha
      rcases Nat.lt_or_eq_of_le hle with hlt | rfl
      · rw [g.get?_chart_split hfirst hlt hlast ha, g.get?_chart_split hfirst hlt hlast ha]
        refine rel_pick h.better (h.splitOffers fun {first' last' b} hshort => ?_)
        by_cases hvalid' :
            Constituent.Valid ⟨first', last', b⟩ tokens.length g.nonterminals.length
        · exact ih _ (hn ▸ hshort) _ _ _ hvalid' rfl
        · rw [get?_chart_of_not_valid hvalid', get?_chart_of_not_valid hvalid']
          exact .none
      · obtain ⟨i, rfl⟩ : ∃ i, first = i + 1 := ⟨first - 1, by omega⟩
        have hw : tokens[i]? = some tokens[i] := List.getElem?_eq_getElem (by omega)
        rw [g.get?_chart_leaf hw ha, g.get?_chart_leaf hw ha]
        exact rel_pick h.better (h.leafOffers _ _ _)
  · rw [get?_chart_of_not_valid hvalid, get?_chart_of_not_valid hvalid]
    exact .none

end Corresponding

end Grammar

end TabularParsing
