import Mathlib.Algebra.Order.BigOperators.Group.List
import Mathlib.Algebra.Order.Field.Rat
import TabularParsing.Proofs.Sampling.Picks
import TabularParsing.Proofs.Text.PrintGrammar

/-!
# Draws and the rules they pick

Running sums of weights from zero on cut what lies below their total into intervals, one for each
rule. A rule is picked exactly for the draws in its interval. If sums are exact the interval is as
long as the rule's weight, and no rule is picked only where no rule weighs anything.

## Main definition

* `Drawing.Free`: every value below a bound may be drawn.

## Main statements

* `pickRule_eq_ok_iff`: what is picked, whether or not sums are rounded.
* `exists_interval_of_mem`: the interval of a rule.
* `error_of_pickRule`
-/
namespace TabularParsing

section Pick

variable {W G : Type} [Zero W] [Add W] [LE W] [LT W] [DecidableLE W] {ws : List W} {u : W} {n : Nat}

/-- The first running sum above a draw is the one at the end of the interval that the draw lies
in. -/
theorem NonnegSums.firstAbove_eq (hs : NonnegSums W) (hws : ∀ w ∈ ws, 0 ≤ w) (hu : 0 ≤ u)
    (hn : n < ws.length) (hle : prefixSum ws n ≤ u) (hlt : u < prefixSum ws (n + 1)) :
    firstAbove (fun i => (runningSums ws)[i]?.any (· ≤ u)) (runningSums ws).length = n := by
  have hsum := hs.prefixSum_nonneg hws
  have hparts := firstAbove_spec (hs.falls hws hu)
  have hbelow {i : Nat} (hi : i < ws.length) :
      (runningSums ws)[i]?.any (· ≤ u) = decide (prefixSum ws (i + 1) ≤ u) := by
    rw [getElem?_runningSums, if_pos hi, Option.any_some]
  generalize firstAbove (fun i => (runningSums ws)[i]?.any (· ≤ u)) (runningSums ws).length = m at *
  rcases Nat.lt_trichotomy m n with hm | rfl | hm
  · -- the sum at the earlier place is no greater than the one where the interval begins
    have hhigh := hparts.high m le_rfl (by rw [length_runningSums]; omega)
    rw [hbelow (by omega), decide_eq_false_iff_not] at hhigh
    exact absurd (hs.total.trans (hsum _) (hsum _) hu (hs.prefixSum_mono hws hm) hle) hhigh
  · rfl
  · have hlow := hparts.low n hm
    rw [hbelow hn, decide_eq_true_iff] at hlow
    exact absurd hlow ((hs.total.lt_iff hu (hsum _)).1 hlt)

variable {draw : Drawing G W} {weights : RuleWeights W} {rules : List Rule} {symbol : String}
  {source source' : G} {r : Rule}

/-- A rule is picked exactly for the draws between the running sums before and behind it. -/
theorem pickRule_eq_ok_iff (hs : NonnegSums W) (hdraw : draw.Below)
    (hweights : ∀ r ∈ rules, 0 ≤ weights.get r) :
    pickRule draw weights rules symbol source = (.ok r, source') ↔
      ∃ (u : W) (n : Nat), draw (prefixSum (rules.map weights.get) rules.length) source =
          some (u, source') ∧ rules[n]? = some r ∧
        prefixSum (rules.map weights.get) n ≤ u ∧
        u < prefixSum (rules.map weights.get) (n + 1) := by
  refine ⟨exists_draw_of_pickRule hs hdraw hweights, ?_⟩
  rintro ⟨u, n, hdrawn, hr, hle, hlt⟩
  have hws : ∀ w ∈ rules.map weights.get, 0 ≤ w := List.forall_mem_map.2 hweights
  have hlength : (rules.map weights.get).length = rules.length := List.length_map ..
  obtain ⟨hu, hbound⟩ := hdraw _ _ _ _ hdrawn
  have hn := (List.getElem?_eq_some_iff.1 hr).1
  have hpos : ¬prefixSum (rules.map weights.get) rules.length ≤ 0 := fun hzero =>
    (hs.total.lt_iff hu (hs.prefixSum_nonneg hws _)).1 hbound
      (hs.total.trans (hs.prefixSum_nonneg hws _) hs.zero_le_zero hu hzero hu)
  simp only [pickRule, getLast?_runningSums, hlength, if_neg hpos, hdrawn,
    hs.firstAbove_eq hws hu (hlength.symm ▸ hn) hle hlt, hr]

end Pick

/-- Something is drawn below every positive bound, and it may be any value from zero up to the
bound, whatever is drawn next. -/
structure Drawing.Free {W G : Type} [Zero W] [LE W] [LT W] (draw : Drawing G W) : Prop where
  below : draw.Below
  drawn : ∀ (bound : W) (source : G), 0 < bound →
    ∃ u source', draw bound source = some (u, source')
  any : ∀ (bound u : W) (source' : G), 0 ≤ u → u < bound →
    ∃ source, draw bound source = some (u, source')

/-- Draws a fraction of the bound, listed beforehand; zero when the list is used up. -/
def drawFraction : Drawing (List {t : ℚ // 0 ≤ t ∧ t < 1}) ℚ := fun bound source =>
  if 0 < bound then
    match source with
    | [] => some (0, [])
    | t :: source => some (t * bound, source)
  else none

theorem free_drawFraction : Drawing.Free drawFraction where
  below bound source u source' h := by
    unfold drawFraction at h
    split at h
    · rename_i hbound
      cases source with
      | nil =>
        obtain ⟨rfl, -⟩ := Prod.mk.inj (Option.some.inj h)
        exact ⟨le_rfl, hbound⟩
      | cons t source =>
        obtain ⟨rfl, -⟩ := Prod.mk.inj (Option.some.inj h)
        exact ⟨mul_nonneg t.2.1 hbound.le, mul_lt_of_lt_one_left hbound t.2.2⟩
    · cases h
  drawn bound source hbound := by
    unfold drawFraction
    rw [if_pos hbound]
    cases source with
    | nil => exact ⟨_, _, rfl⟩
    | cons t source => exact ⟨_, _, rfl⟩
  any bound u source' hu hlt := by
    have hbound : 0 < bound := hu.trans_lt hlt
    refine ⟨⟨u / bound, div_nonneg hu hbound.le, (div_lt_one hbound).2 hlt⟩ :: source', ?_⟩
    simp only [drawFraction, if_pos hbound, div_mul_cancel₀ u hbound.ne']

/-! ## Exact sums -/

section Exact

variable {W G : Type} [AddCommGroup W] [LinearOrder W] [IsOrderedAddMonoid W]

theorem nonnegSums_exact : NonnegSums W where
  total := totalOn_of_linearOrder _
  zero_le_zero := le_rfl
  add_nonneg := add_nonneg
  le_add _ hy := le_add_of_nonneg_right hy
  add_le _ _ hpos := add_le_of_nonpos_right (not_lt.1 hpos)

omit [LinearOrder W] [IsOrderedAddMonoid W] in
theorem prefixSum_eq_sum (ws : List W) (n : Nat) : prefixSum ws n = (ws.take n).sum :=
  (List.sum_eq_foldl ..).symm

omit [LinearOrder W] [IsOrderedAddMonoid W] in
theorem prefixSum_length (weights : RuleWeights W) (rules : List Rule) :
    prefixSum (rules.map weights.get) rules.length = (rules.map weights.get).sum := by
  rw [prefixSum_eq_sum, List.take_of_length_le (List.length_map ..).le]

variable {draw : Drawing G W} {weights : RuleWeights W} {rules : List Rule} {symbol : String}

/-- The draws that a rule is picked for make an interval below the bound, as long as the rule's
weight. -/
theorem exists_interval_of_mem (symbol : String) (hdraw : draw.Below)
    (hweights : ∀ r ∈ rules, 0 ≤ weights.get r) (hnodup : rules.Nodup) {r : Rule} (hr : r ∈ rules) :
    ∃ low, 0 ≤ low ∧ low + weights.get r ≤ (rules.map weights.get).sum ∧
      ∀ source source', pickRule draw weights rules symbol source = (.ok r, source') ↔
        ∃ u ∈ Set.Ico low (low + weights.get r),
          draw (rules.map weights.get).sum source = some (u, source') := by
  have hws : ∀ w ∈ rules.map weights.get, 0 ≤ w := List.forall_mem_map.2 hweights
  obtain ⟨n, hn⟩ := List.mem_iff_getElem?.1 hr
  have hlt := (List.getElem?_eq_some_iff.1 hn).1
  have hnext : prefixSum (rules.map weights.get) (n + 1) =
      prefixSum (rules.map weights.get) n + weights.get r :=
    prefixSum_succ (by rw [List.getElem?_map, hn, Option.map_some])
  refine ⟨prefixSum (rules.map weights.get) n, nonnegSums_exact.prefixSum_nonneg hws n, ?_, ?_⟩
  · rw [← hnext, ← prefixSum_length]
    exact nonnegSums_exact.prefixSum_mono hws hlt
  · intro source source'
    rw [pickRule_eq_ok_iff nonnegSums_exact hdraw hweights, prefixSum_length]
    constructor
    · rintro ⟨u, m, hdrawn, hm, hle, hlt'⟩
      -- the rule stands in one place only
      have hlt := (List.getElem?_eq_some_iff.1 hm).1
      obtain rfl := (List.getElem?_inj hlt hnodup).1 (hm.trans hn.symm)
      exact ⟨u, ⟨hle, hnext ▸ hlt'⟩, hdrawn⟩
    · rintro ⟨u, ⟨hle, hlt'⟩, hdrawn⟩
      exact ⟨u, n, hdrawn, hn, hle, hnext.symm ▸ hlt'⟩

omit [IsOrderedAddMonoid W] in
/-- What lies below a running sum lies between two that follow each other. -/
theorem exists_between_prefixSums {ws : List W} {u : W} {m : Nat} (hu : 0 ≤ u)
    (h : u < prefixSum ws m) : ∃ n < m, prefixSum ws n ≤ u ∧ u < prefixSum ws (n + 1) := by
  induction m with
  | zero => exact absurd h (not_lt.2 hu)
  | succ m ih =>
    by_cases hm : u < prefixSum ws m
    · obtain ⟨n, hn, hle, hlt⟩ := ih hm
      exact ⟨n, Nat.lt_succ_of_lt hn, hle, hlt⟩
    · exact ⟨m, Nat.lt_succ_self m, not_lt.1 hm, h⟩

/-- With draws below every positive bound nothing is picked only if nothing weighs anything. -/
theorem error_of_pickRule (hdraw : draw.Free) (hweights : ∀ r ∈ rules, 0 ≤ weights.get r)
    {source source' : G} {e : SamplingError}
    (h : pickRule draw weights rules symbol source = (.error e, source')) :
    e = .noAlternatives symbol ∧ ∀ r ∈ rules, ¬0 < weights.get r := by
  have hws : ∀ w ∈ rules.map weights.get, 0 ≤ w := List.forall_mem_map.2 hweights
  have hlength : (rules.map weights.get).length = rules.length := List.length_map ..
  by_cases hzero : prefixSum (rules.map weights.get) rules.length ≤ 0
  · simp only [pickRule, getLast?_runningSums, hlength, if_pos hzero] at h
    refine ⟨(Except.error.inj (Prod.mk.inj h).1).symm, fun r hr => not_lt.2 ?_⟩
    rw [prefixSum_length] at hzero
    exact (List.single_le_sum hws _ (List.mem_map_of_mem hr)).trans hzero
  · obtain ⟨u, source₁, hdrawn⟩ := hdraw.drawn _ source (not_le.1 hzero)
    obtain ⟨hu, hlt⟩ := hdraw.below _ _ _ _ hdrawn
    obtain ⟨n, hn, hle, hlt⟩ := exists_between_prefixSums hu hlt
    have hpick : pickRule draw weights rules symbol source = (.ok rules[n], source₁) :=
      (pickRule_eq_ok_iff nonnegSums_exact hdraw.below hweights).2
        ⟨u, n, hdrawn, List.getElem?_eq_getElem hn, hle, hlt⟩
    rw [hpick] at h
    cases h

end Exact

end TabularParsing
