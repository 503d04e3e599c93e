import TabularParsing.Proofs.Recognition

/-!
# The first proof is kept

A cell of a recognition chart over two words or more holds the backpointer of the first way to
prove its symbol: the earliest split and, at that split, the earliest pair rule whose children
derive the two parts. Nothing that happens to other cells while the span is worked on disturbs
that order, for the two parts are shorter and their cells are final by then.

## Main definition

* `Grammar.Proves`: a pair rule over a split, with derivations of both parts.

## Main statement

* `Grammar.first_proof_kept`
-/
namespace TabularParsing

variable {α : Type}

/-- Once a free cell is set nothing replaces its value if no value beats another. -/
theorem pick_of_not_beats (as : List α) : pick (fun _ _ => false) as = as.head? := by
  have hkeep (b : α) : as.foldl (better fun _ _ => false) (some b) = some b := by
    induction as with
    | nil => rfl
    | cons a as ih => exact ih
  cases as with
  | nil => rfl
  | cons b as => exact hkeep b

namespace Grammar

variable {g : Grammar} {tokens : List String}

/-- The `n`-th pair rule, for a span that is split behind the position `mid`: its children derive
the two parts. -/
inductive Proves (g : Grammar) (tokens : List String) (first last : Nat) (lhs : String)
    (mid n : Nat) : Backpointer → Prop where
  | mk {left right : String} {b c : Nat} :
      g.pairRules[n]? = some (.pair lhs left right) →
      g.index? left = some b → g.index? right = some c → first ≤ mid → mid < last →
      g.Derives left (segment tokens (first - 1) mid) →
      g.Derives right (segment tokens mid last) →
      Proves g tokens first last lhs mid n (.split ⟨first, mid, b⟩ ⟨mid + 1, last, c⟩)

/-- A rule at a split leads to one pair of cells only. -/
theorem Proves.unique {first last mid n : Nat} {lhs : String} {o o' : Backpointer}
    (h : g.Proves tokens first last lhs mid n o) (h' : g.Proves tokens first last lhs mid n o') :
    o = o' := by
  obtain ⟨hr, hb, hc, -, -, -, -⟩ := h
  obtain ⟨hr', hb', hc', -, -, -, -⟩ := h'
  obtain ⟨-, hrhs⟩ := Rule.mk.inj (Option.some.inj (hr.symm.trans hr'))
  obtain ⟨rfl, rfl⟩ := Rhs.pair.inj hrhs
  obtain rfl := Option.some.inj (hb.symm.trans hb')
  obtain rfl := Option.some.inj (hc.symm.trans hc')
  rfl

/-- What pair rules offer over the cells of the finished chart are the proofs. -/
theorem offersAt_iff_proves {first last mid n : Nat} {lhs : String} {o : Backpointer}
    (hfirst : 1 ≤ first) (hlast : last ≤ tokens.length) :
    g.OffersAt firstProof (fun _ => ()) (g.proofChart tokens).get? first last lhs mid n o ↔
      g.Proves tokens first last lhs mid n o := by
  have hcell {symbol : String} {i j a : Nat} (ha : g.index? symbol = some a) (hi : 1 ≤ i)
      (hij : i ≤ j) (hj : j ≤ tokens.length) :
      (∃ x, (g.proofChart tokens).get? ⟨i, j, a⟩ = some x) ↔
        g.Derives symbol (segment tokens (i - 1) j) := by
    rw [← Option.isSome_iff_exists]
    exact contains_proofChart_iff ha hi hij hj
  constructor
  · rintro ⟨hr, hb, hc, hmid, hmid', hx, hy, ho⟩
    obtain rfl := Option.some.inj ho
    exact .mk hr hb hc hmid hmid' ((hcell hb hfirst hmid (by omega)).1 ⟨_, hx⟩)
      ((hcell hc (by omega) hmid' hlast).1 ⟨_, hy⟩)
  · rintro ⟨hr, hb, hc, hmid, hmid', hleft, hright⟩
    obtain ⟨x, hx⟩ := (hcell hb hfirst hmid (by omega)).2 hleft
    obtain ⟨y, hy⟩ := (hcell hc (by omega) hmid' hlast).2 hright
    exact .mk hr hb hc hmid hmid' hx hy rfl

/-- A set cell of a longer span holds a proof, and no earlier one exists. -/
theorem exists_first_of_get?_proofChart {first last a : Nat} {lhs : String} {o : Backpointer}
    (ha : g.index? lhs = some a) (hlt : first < last)
    (ho : (g.proofChart tokens).get? ⟨first, last, a⟩ = some o) :
    ∃ mid n, g.Proves tokens first last lhs mid n o ∧
      ∀ mid' n' o', g.Proves tokens first last lhs mid' n' o' →
        mid < mid' ∨ mid = mid' ∧ n ≤ n' := by
  obtain ⟨hfirst, -, hlast, -⟩ := Admits.valid_of_get?_chart ho
  rw [proofChart, g.get?_chart_split hfirst hlt hlast (index?_lt ha)] at ho
  obtain ⟨post, hoffers⟩ := List.head?_eq_some_iff.1 ((pick_of_not_beats _).symm.trans ho)
  rw [← List.nil_append (o :: post)] at hoffers
  -- the value of the cell is the first offer, so no offer is made before it
  obtain ⟨mid, n, hoffer, hearlier⟩ := offersAt_of_splitOffers_eq ha hoffers
  refine ⟨mid, n, (offersAt_iff_proves hfirst hlast).1 hoffer, fun mid' n' o' hproves => ?_⟩
  by_contra hbefore
  exact List.not_mem_nil (hearlier mid' n' o' ((offersAt_iff_proves hfirst hlast).2 hproves)
    (by omega))

/-- Over two words or more a cell holds a backpointer exactly if it belongs to the first pair of
split and rule, by the split and then by the order of the rules, whose children derive the two
parts. -/
theorem first_proof_kept (g : Grammar) (tokens : List String) {first last a : Nat}
    (hlt : first < last) (o : Backpointer) :
    (g.proofChart tokens).get? ⟨first, last, a⟩ = some o ↔
      1 ≤ first ∧ last ≤ tokens.length ∧ ∃ lhs, g.index? lhs = some a ∧
        ∃ mid n, g.Proves tokens first last lhs mid n o ∧
          ∀ mid' n' o', g.Proves tokens first last lhs mid' n' o' →
            mid < mid' ∨ mid = mid' ∧ n ≤ n' := by
  constructor
  · intro ho
    obtain ⟨hfirst, -, hlast, hsymbol⟩ := Admits.valid_of_get?_chart ho
    obtain ⟨lhs, ha⟩ := exists_symbol hsymbol
    exact ⟨hfirst, hlast, lhs, ha, exists_first_of_get?_proofChart ha hlt ho⟩
  · rintro ⟨hfirst, hlast, lhs, ha, mid, n, hproves, hminimal⟩
    have hset : ∃ o', (g.proofChart tokens).get? ⟨first, last, a⟩ = some o' := by
      rw [← Option.isSome_iff_exists, proofChart,
        g.get?_chart_split hfirst hlt hlast (index?_lt ha), isSome_pick]
      exact List.ne_nil_of_mem ((mem_splitOffers ha).2
        ⟨mid, n, (offersAt_iff_proves hfirst hlast).2 hproves⟩)
    obtain ⟨o', ho'⟩ := hset
    obtain ⟨mid', n', hproves', hminimal'⟩ := exists_first_of_get?_proofChart ha hlt ho'
    -- each of the two proofs is no later than the other, so they are one
    have hle := hminimal mid' n' o' hproves'
    have hle' := hminimal' mid n o hproves
    obtain ⟨rfl, rfl⟩ : mid = mid' ∧ n = n' := by omega
    rw [ho', hproves'.unique hproves]

/-- Two rules prove the whole of a sentence at each of its splits. -/
def regrouping : Grammar :=
  .make [.word "S" "x", .word "T" "x", .pair "S" "T" "S", .pair "S" "S" "T", .pair "T" "S" "S"]
    (by simp)

/-- Of the proofs of the whole sentence the cell holds the one at the first split, and there by the
rule that stands first. -/
theorem first_proof_kept_regrouping :
    1 < 3 ∧
    (regrouping.proofChart ["x", "x", "x"]).get? ⟨1, 3, 0⟩ =
      some (.split ⟨1, 1, 1⟩ ⟨2, 3, 0⟩) ∧
    ∃ lhs, regrouping.index? lhs = some 0 ∧ ∃ mid n,
      regrouping.Proves ["x", "x", "x"] 1 3 lhs mid n (.split ⟨1, 1, 1⟩ ⟨2, 3, 0⟩) ∧
      ∀ mid' n' o', regrouping.Proves ["x", "x", "x"] 1 3 lhs mid' n' o' →
        mid < mid' ∨ mid = mid' ∧ n ≤ n' := by
  have hcell : (regrouping.proofChart ["x", "x", "x"]).get? ⟨1, 3, 0⟩ =
      some (.split ⟨1, 1, 1⟩ ⟨2, 3, 0⟩) := by decide +kernel
  obtain ⟨-, -, hfirst⟩ :=
    (first_proof_kept regrouping ["x", "x", "x"] (by decide) _).1 hcell
  exact ⟨by decide, hcell, hfirst⟩

end Grammar

end TabularParsing
