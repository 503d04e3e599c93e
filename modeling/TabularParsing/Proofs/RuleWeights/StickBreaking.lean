import TabularParsing.Proofs.Sampling.Intervals
import TabularParsing.RuleWeights.StickBreaking

/-!
# Breaking sticks leaves distributions

While pieces are broken off, what is gone of a stick stays below one if sums are exact: a piece is
drawn below what is left. So every draw has a bound above zero, the last alternative gets a piece
above zero, and all pieces make the whole stick. A rule is an alternative of one symbol only and
stands there once, so the table keeps every piece.

## Main definitions

* `Drawing.BelowOne`: what is asked of draws.
* `Drawing.AgreeBelowOne`: draws that differ for bounds beyond one or below zero only.
* `RuleWeights.Broken`: the pieces of what is left of a stick.

## Main statements

* `RuleWeights.exists_broken_breakStick`: one stick.
* `RuleWeights.byStickBreaking_distribution`
-/
namespace TabularParsing

section Drawing

variable {W G : Type} [Zero W] [One W] [LE W] [LT W]

/-- For bounds above zero, up to one, some value from zero up to the bound is drawn. Nothing is
asked of other bounds. -/
def Drawing.BelowOne (draw : Drawing G W) : Prop :=
  ∀ (bound : W) (source : G), 0 < bound → bound ≤ 1 →
    ∃ u source', draw bound source = some (u, source') ∧ 0 ≤ u ∧ u < bound

theorem Drawing.Free.belowOne {draw : Drawing G W} (hdraw : draw.Free) : draw.BelowOne := by
  intro bound source hpos _
  obtain ⟨u, source', hdrawn⟩ := hdraw.drawn bound source hpos
  exact ⟨u, source', hdrawn, hdraw.below _ _ _ _ hdrawn⟩

/-- Both draw the same for bounds above zero, up to one. -/
def Drawing.AgreeBelowOne (draw draw' : Drawing G W) : Prop :=
  ∀ (bound : W) (source : G), 0 < bound → bound ≤ 1 → draw' bound source = draw bound source

end Drawing

theorem sumOf_eq_sum {W : Type} [AddMonoid W] (ws : List W) : sumOf ws = ws.sum := by
  cases ws with
  | nil => rfl
  | cons w ws =>
    rw [List.sum_eq_foldl, List.foldl_cons, zero_add]
    rfl

namespace RuleWeights

/-! ## Tables of entries -/

section Table

variable {W : Type} {es : List (Rule × W)} {r : Rule} {w : W}

theorem get?_foldl_insert_of_not_mem (h : r ∉ es.map Prod.fst) (t : RuleWeights W) :
    (es.foldl (fun t e => t.insert e.1 e.2) t).get? r = t.get? r := by
  induction es generalizing t with
  | nil => rfl
  | cons e es ih =>
    rw [List.map_cons, List.mem_cons, not_or] at h
    rw [List.foldl_cons, ih h.2, get?_insert, if_neg (Ne.symm h.1)]

/-- A table of entries for different rules holds just those. -/
theorem get?_ofList_eq_some_iff (hnodup : (es.map Prod.fst).Nodup) :
    (ofList es).get? r = some w ↔ (r, w) ∈ es := by
  have hget {w : W} (hmem : (r, w) ∈ es) : (ofList es).get? r = some w := by
    obtain ⟨before, after, rfl⟩ := List.append_of_mem hmem
    rw [List.map_append, List.map_cons, List.nodup_append, List.nodup_cons] at hnodup
    obtain ⟨-, ⟨hafter, -⟩, -⟩ := hnodup
    rw [ofList, List.foldl_append, List.foldl_cons, get?_foldl_insert_of_not_mem hafter,
      get?_insert, if_pos rfl]
  refine ⟨fun h => ?_, hget⟩
  by_cases hr : r ∈ es.map Prod.fst
  · obtain ⟨⟨r', w'⟩, hmem, rfl⟩ := List.mem_map.1 hr
    obtain rfl := Option.some.inj ((hget hmem).symm.trans h)
    exact hmem
  · rw [ofList, get?_foldl_insert_of_not_mem hr, get?_empty] at h
    cases h

end Table

/-! ## One stick after the other -/

variable {W G : Type} [CommRing W] [LinearOrder W] [IsStrictOrderedRing W]

/-- What was left of a stick lies broken among the rules, in pieces that are not below zero. -/
structure Broken (gone : W) (rules : List Rule) (pieces : List (Rule × W)) : Prop where
  rules : pieces.map Prod.fst = rules
  nonneg : ∀ p ∈ pieces, 0 ≤ p.2
  whole : gone + (pieces.map Prod.snd).sum = 1

theorem Broken.le_one {gone : W} {rules : List Rule} {pieces : List (Rule × W)}
    (h : Broken gone rules pieces) (hgone : 0 ≤ gone) {p : Rule × W} (hp : p ∈ pieces) :
    p.2 ≤ 1 := by
  have hpiece : p.2 ≤ (pieces.map Prod.snd).sum :=
    List.single_le_sum (List.forall_mem_map.2 h.nonneg) _ (List.mem_map_of_mem hp)
  calc p.2 ≤ (pieces.map Prod.snd).sum := hpiece
    _ ≤ gone + (pieces.map Prod.snd).sum := le_add_of_nonneg_left hgone
    _ = 1 := h.whole

variable {draw : Drawing G W}

/-- What is left of a stick is broken by draws with bounds up to what is left. -/
theorem exists_broken_breakStick (hdraw : draw.BelowOne) {rules : List Rule} (hne : rules ≠ [])
    {gone : W} (hgone : 0 ≤ gone) (hleft : gone < 1) (source : G) :
    ∃ pieces source', Broken gone rules pieces ∧ ∀ draw' : Drawing G W, draw.AgreeBelowOne draw' →
      breakStick draw' rules gone source = some (pieces, source') := by
  induction rules generalizing gone source with
  | nil => exact absurd rfl hne
  | cons r rules ih =>
    have hpos : 0 < 1 - gone := sub_pos.2 hleft
    cases rules with
    | nil =>
      refine ⟨[(r, 1 - gone)], source, ⟨rfl, ?_, ?_⟩, fun _ _ => rfl⟩
      · intro p hp
        rw [List.mem_singleton.1 hp]
        exact hpos.le
      · rw [List.map_singleton, List.sum_singleton, add_sub_cancel]
    | cons s rules =>
      have hbound : 1 - gone ≤ 1 := sub_le_self 1 hgone
      obtain ⟨u, source₁, hdrawn, hu, hlt⟩ := hdraw _ source hpos hbound
      obtain ⟨pieces, source₂, hbroken, hrun⟩ := ih (List.cons_ne_nil _ _) (add_nonneg hgone hu)
        (lt_sub_iff_add_lt'.1 hlt) source₁
      refine ⟨(r, u) :: pieces, source₂, ⟨?_, ?_, ?_⟩, fun draw' hagree => ?_⟩
      · rw [List.map_cons, hbroken.rules]
      · exact List.forall_mem_cons.2 ⟨hu, hbroken.nonneg⟩
      · rw [List.map_cons, List.sum_cons, ← add_assoc]
        exact hbroken.whole
      · have hdrawn' : draw' (1 - gone) source = some (u, source₁) :=
          (hagree _ _ hpos hbound).trans hdrawn
        rw [breakStick, if_pos hpos, hdrawn']
        simp only [Option.bind_eq_bind, Option.bind_some, hrun draw' hagree]
        rfl

/-- The sticks of several symbols are broken each for itself. -/
theorem exists_broken_breakSticks (hdraw : draw.BelowOne) {g : Grammar} {symbols : List String}
    (hne : ∀ s ∈ symbols, g.alternatives s ≠ []) (source : G) :
    ∃ pieces source', pieces.map Prod.fst = symbols.flatMap g.alternatives ∧
      (∀ p ∈ pieces, 0 ≤ p.2 ∧ p.2 ≤ 1) ∧
      (∀ s ∈ symbols, ∃ stick, stick ⊆ pieces ∧ Broken 0 (g.alternatives s) stick) ∧
      ∀ draw' : Drawing G W, draw.AgreeBelowOne draw' →
        breakSticks draw' g symbols source = some (pieces, source') := by
  induction symbols generalizing source with
  | nil =>
    exact ⟨[], source, rfl, fun _ h => absurd h List.not_mem_nil,
      fun _ h => absurd h List.not_mem_nil, fun _ _ => rfl⟩
  | cons symbol symbols ih =>
    obtain ⟨stick, source₁, hbroken, hrun⟩ := exists_broken_breakStick hdraw
      (hne symbol List.mem_cons_self) le_rfl zero_lt_one source
    obtain ⟨pieces, source₂, hrules, hunit, hsticks, hrest⟩ :=
      ih (fun s hs => hne s (List.mem_cons_of_mem _ hs)) source₁
    refine ⟨stick ++ pieces, source₂, ?_, fun p hp => ?_, fun s hs => ?_, fun draw' hagree => ?_⟩
    · rw [List.map_append, hbroken.rules, hrules, List.flatMap_cons]
    · rcases List.mem_append.1 hp with hp | hp
      · exact ⟨hbroken.nonneg p hp, hbroken.le_one le_rfl hp⟩
      · exact hunit p hp
    · rcases List.mem_cons.1 hs with rfl | hs
      · exact ⟨stick, List.subset_append_left _ _, hbroken⟩
      · obtain ⟨stick', hsubset, hbroken'⟩ := hsticks s hs
        exact ⟨stick', List.Subset.trans hsubset (List.subset_append_right _ _), hbroken'⟩
    · simp only [breakSticks, hrun draw' hagree, hrest draw' hagree, Option.bind_eq_bind,
        Option.bind_some]
      rfl

/-- With exact sums and draws below their bounds, stick breaking asks for draws below bounds above
zero, up to one, whatever else would be drawn. It weighs the rules of the grammar and no others, by
weights from zero to one, and the alternatives of each symbol weigh one together. -/
theorem byStickBreaking_distribution (hdraw : draw.BelowOne) (g : Grammar) (source : G) :
    ∃ table source', byStickBreaking draw g source = some (table, source') ∧
      (∀ draw' : Drawing G W, draw.AgreeBelowOne draw' →
        byStickBreaking draw' g source = some (table, source')) ∧
      (∀ r, (table.get? r).isSome ↔ r ∈ g.rules) ∧
      (∀ r w, table.get? r = some w → 0 ≤ w ∧ w ≤ 1) ∧
      (∀ s ∈ g.nonterminals, ((g.alternatives s).map table.get).sum = 1) ∧
      ∀ tolerance, 0 ≤ tolerance → table.unnormalized g tolerance = [] := by
  have hne : ∀ s ∈ g.nonterminals, g.alternatives s ≠ [] := by
    intro s hs
    obtain ⟨r, hr, rfl⟩ := Grammar.mem_nonterminals.1 hs
    exact List.ne_nil_of_mem (Grammar.mem_alternatives.2 ⟨hr, rfl⟩)
  obtain ⟨pieces, source', hrules, hunit, hsticks, hrun⟩ :=
    exists_broken_breakSticks hdraw hne source
  have hnodup : (pieces.map Prod.fst).Nodup := hrules ▸ g.nodup_printedRules
  have hget {r : Rule} {w : W} : (ofList pieces).get? r = some w ↔ (r, w) ∈ pieces :=
    get?_ofList_eq_some_iff hnodup
  have hsum : ∀ s ∈ g.nonterminals, ((g.alternatives s).map (ofList pieces).get).sum = 1 := by
    intro s hs
    obtain ⟨stick, hsubset, hbroken⟩ := hsticks s hs
    have hweight : ∀ p ∈ stick, ((ofList pieces).get ∘ Prod.fst) p = p.2 := by
      intro p hp
      rw [Function.comp_apply, get, hget.2 (hsubset hp), Option.getD_some]
    rw [← hbroken.rules, List.map_map, List.map_congr_left hweight, ← hbroken.whole, zero_add]
  have hbreak (draw' : Drawing G W) (hagree : draw.AgreeBelowOne draw') :
      byStickBreaking draw' g source = some (ofList pieces, source') := by
    rw [byStickBreaking, hrun draw' hagree, Option.map_some]
  refine ⟨ofList pieces, source', hbreak draw fun _ _ _ _ => rfl, hbreak, fun r => ?_,
    fun r w hw => ?_, hsum, fun tolerance htolerance => ?_⟩
  · rw [Option.isSome_iff_exists, ← Grammar.mem_printedRules, Grammar.printedRules, ← hrules,
      List.mem_map]
    constructor
    · rintro ⟨w, hw⟩
      exact ⟨_, hget.1 hw, rfl⟩
    · rintro ⟨⟨r', w⟩, hmem, rfl⟩
      exact ⟨w, hget.2 hmem⟩
  · exact hunit _ (hget.1 hw)
  · rw [unnormalized, List.filter_eq_nil_iff]
    intro p hp
    obtain ⟨s, hs, rfl⟩ := List.mem_map.1 hp
    rw [offOne, sumOf_eq_sum, hsum s hs, sub_self, Bool.or_self, decide_eq_true_iff]
    exact not_lt.2 htolerance

/-- A symbol with three alternatives and one with a single alternative. -/
def threefold : Grammar :=
  .make [.pair "S" "S" "T", .word "S" "x", .word "S" "y", .word "T" "z"] (by simp)

/-- A half of the stick, then nothing of what is left. -/
theorem byStickBreaking_distribution_threefold :
    drawFraction.BelowOne ∧ ∃ table source',
      byStickBreaking drawFraction threefold [⟨1 / 2, by norm_num⟩, ⟨0, by norm_num⟩] =
        some (table, source') ∧
      ((threefold.alternatives "S").map table.get).sum = 1 ∧
      table.unnormalized threefold 0 = [] := by
  obtain ⟨table, source', hbreak, -, -, -, hsum, hnormal⟩ := byStickBreaking_distribution
    free_drawFraction.belowOne threefold [⟨1 / 2, by norm_num⟩, ⟨0, by norm_num⟩]
  exact ⟨free_drawFraction.belowOne, table, source', hbreak, hsum "S" (by decide),
    hnormal 0 le_rfl⟩

end RuleWeights

end TabularParsing
