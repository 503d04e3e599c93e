import TabularParsing.Proofs.Double.Sums
import TabularParsing.Sampling

/-!
# Which rule is picked

Weights from zero on have running sums that never fall, so the halving finds the first sum above a
draw. The rule picked is the one whose weight takes the running sum past the draw, and a weight
that does so is above zero.

## Main definitions

* `NonnegSums`: what is asked of sums of weights from zero on.
* `Drawing.Below`: what is asked of draws.
* `prefixSum`: the sum of the first weights.

## Main statements

* `firstAbove_spec`
* `exists_draw_of_pickRule`, `pos_of_pickRule`
-/
namespace TabularParsing

/-! ## Halving -/

section Search

variable {below : Nat → Bool} {total base size n : Nat}

/-- Before `base` the test holds, and it fails from `size` places later on. -/
structure Parts (below : Nat → Bool) (total base size : Nat) : Prop where
  le : base + size ≤ total
  low : ∀ i < base, below i = true
  high : ∀ i, base + size ≤ i → i < total → below i = false

/-- Once the test fails it keeps failing. -/
def Falls (below : Nat → Bool) (total : Nat) : Prop :=
  ∀ i j, i ≤ j → j < total → below j = true → below i = true

/-- Halving narrows the places down to one. -/
theorem Parts.halve (hfalls : Falls below total) (h : Parts below total base size)
    (hpos : 0 < size) (hn : size ≤ n) :
    Parts below total (TabularParsing.halve below n size base) 1 := by
  induction n generalizing size base with
  | zero => omega
  | succ n ih =>
    have hle := h.le
    rw [TabularParsing.halve]
    split
    · obtain rfl : size = 1 := by omega
      exact h
    · refine ih ?_ (by omega) (by omega)
      split
      · rename_i hbelow
        refine ⟨by omega, fun i hi => ?_, fun i hi => h.high i (by omega)⟩
        exact hfalls i (base + size / 2) (by omega) (by omega) hbelow
      · rename_i hbelow
        refine ⟨by omega, h.low, fun i hi hi' => ?_⟩
        by_contra htrue
        exact hbelow (hfalls _ i (by omega) hi' (by simpa using htrue))

/-- The first place at which a falling test fails. -/
theorem firstAbove_spec (hfalls : Falls below total) :
    Parts below total (firstAbove below total) 0 := by
  rw [firstAbove]
  split
  · exact ⟨by omega, fun i hi => by omega, fun i hi => by omega⟩
  · have hstart : Parts below total 0 total :=
      ⟨by omega, fun i hi => by omega, fun i hi => by omega⟩
    have h := hstart.halve hfalls (by omega) le_rfl
    have hle := h.le
    simp only
    split
    · rename_i hbelow
      refine ⟨by omega, fun i hi => ?_, h.high⟩
      exact hfalls i _ (by omega) (by omega) hbelow
    · rename_i hbelow
      refine ⟨by omega, h.low, fun i hi hi' => ?_⟩
      by_contra htrue
      exact hbelow (hfalls _ i hi hi' (by simpa using htrue))

end Search

/-! ## Running sums -/

section Sums

variable {W : Type} [Zero W] [Add W]

/-- The sum of the first `n` weights. -/
def prefixSum (ws : List W) (n : Nat) : W := (ws.take n).foldl (· + ·) 0

theorem prefixSum_succ {ws : List W} {n : Nat} {w : W} (h : ws[n]? = some w) :
    prefixSum ws (n + 1) = prefixSum ws n + w := by
  rw [prefixSum, prefixSum, List.take_add_one, h]
  simp

theorem prefixSum_succ_of_none {ws : List W} {n : Nat} (h : ws[n]? = none) :
    prefixSum ws (n + 1) = prefixSum ws n := by
  rw [prefixSum, prefixSum, List.take_add_one, h, Option.toList_none, List.append_nil]

omit [Zero W] in
theorem getElem?_runningSums_go (ws : List W) (x : W) (n : Nat) :
    (runningSums.go x ws)[n]? =
      if n < ws.length then some ((ws.take (n + 1)).foldl (· + ·) x) else none := by
  induction ws generalizing x n with
  | nil => simp [runningSums.go]
  | cons w ws ih =>
    cases n with
    | zero => simp [runningSums.go]
    | succ n => simp [runningSums.go, ih]

theorem getElem?_runningSums (ws : List W) (n : Nat) :
    (runningSums ws)[n]? = if n < ws.length then some (prefixSum ws (n + 1)) else none :=
  getElem?_runningSums_go ws 0 n

theorem length_runningSums (ws : List W) : (runningSums ws).length = ws.length := by
  have h : ∀ x : W, (runningSums.go x ws).length = ws.length := by
    induction ws with
    | nil => exact fun _ => rfl
    | cons w ws ih => exact fun x => congrArg Nat.succ (ih _)
  exact h 0

/-- The last running sum is the sum of all weights. -/
theorem getLast?_runningSums (ws : List W) :
    (runningSums ws).getLast?.getD 0 = prefixSum ws ws.length := by
  rw [List.getLast?_eq_getElem?, length_runningSums, getElem?_runningSums]
  cases ws with
  | nil => rfl
  | cons w ws => simp

end Sums

/-- Values from zero on compare like numbers, and adding one of them never leads down; it leads up
only if it is above zero. -/
structure NonnegSums (W : Type) [Zero W] [Add W] [LE W] [LT W] : Prop where
  total : TotalOn fun x : W => 0 ≤ x
  zero_le_zero : (0 : W) ≤ 0
  add_nonneg : ∀ {x y : W}, 0 ≤ x → 0 ≤ y → 0 ≤ x + y
  le_add : ∀ {x y : W}, 0 ≤ x → 0 ≤ y → x ≤ x + y
  add_le : ∀ {x y : W}, 0 ≤ x → 0 ≤ y → ¬0 < y → x + y ≤ x

namespace NonnegSums

variable {W : Type} [Zero W] [Add W] [LE W] [LT W] {ws : List W}

theorem prefixSum_nonneg (h : NonnegSums W) (hws : ∀ w ∈ ws, 0 ≤ w) (n : Nat) :
    0 ≤ prefixSum ws n := by
  induction n with
  | zero => exact h.zero_le_zero
  | succ n ih =>
    cases hw : ws[n]? with
    | none => rwa [prefixSum_succ_of_none hw]
    | some w =>
      rw [prefixSum_succ hw]
      exact h.add_nonneg ih (hws w (List.mem_of_getElem? hw))

theorem prefixSum_mono (h : NonnegSums W) (hws : ∀ w ∈ ws, 0 ≤ w) {m n : Nat} (hmn : m ≤ n) :
    prefixSum ws m ≤ prefixSum ws n := by
  have hsum := h.prefixSum_nonneg hws
  induction n, hmn using Nat.le_induction with
  | base => exact h.total.refl (hsum m)
  | succ n _ ih =>
    refine h.total.trans (hsum m) (hsum n) (hsum (n + 1)) ih ?_
    cases hw : ws[n]? with
    | none =>
      rw [prefixSum_succ_of_none hw]
      exact h.total.refl (hsum n)
    | some w =>
      rw [prefixSum_succ hw]
      exact h.le_add (hsum n) (hws w (List.mem_of_getElem? hw))

end NonnegSums

/-- Doubles satisfy all that is asked of sums, although these are rounded. -/
theorem Double.nonnegSums_double : NonnegSums Float where
  total := totalOn_isNumber.mono fun h => (nonneg_iff.1 h).1
  zero_le_zero := by decide
  add_nonneg {x y} hx hy := by
    have hle := level_le_level_add (never_lt_of_nonneg hx) hy
    have hsum := isNumber_add (never_lt_of_nonneg hx) (never_lt_of_nonneg hy)
    exact nonneg_iff.2 ⟨hsum, (nonneg_iff.1 hx).2.trans hle⟩
  le_add {x y} hx hy := by
    have hsum := isNumber_add (never_lt_of_nonneg hx) (never_lt_of_nonneg hy)
    exact (le_iff_level (nonneg_iff.1 hx).1 hsum).2
      (level_le_level_add (never_lt_of_nonneg hx) hy)
  add_le {x y} hx hy hpos := by
    have hzero : IsNumber 0 := .zero .positive
    obtain ⟨hnumber, hlevel⟩ := nonneg_iff.1 hy
    rw [lt_iff_level hzero hnumber] at hpos
    have hlevel0 : level 0 = 0 := rfl
    have hsum := isNumber_add (never_lt_of_nonneg hx) (never_lt_of_nonneg hy)
    rw [le_iff_level hsum (nonneg_iff.1 hx).1, level_add_of_level_eq_zero (never_lt_of_nonneg hx)
      (never_lt_of_nonneg hy) (by omega)]

/-! ## Picks -/

section Pick

variable {W G : Type} [Zero W] [LE W] [LT W]

/-- A drawn value is at least zero and below the bound. -/
def Drawing.Below (draw : Drawing G W) : Prop :=
  ∀ bound source u source', draw bound source = some (u, source') → 0 ≤ u ∧ u < bound

variable [Add W] [DecidableLE W] {draw : Drawing G W} {weights : RuleWeights W} {rules : List Rule}
  {symbol : String} {source source' : G} {r : Rule}

/-- Running sums of weights from zero on exceed a draw from some place on. -/
theorem NonnegSums.falls (hs : NonnegSums W) {ws : List W} (hws : ∀ w ∈ ws, 0 ≤ w) {u : W}
    (hu : 0 ≤ u) :
    Falls (fun i => (runningSums ws)[i]?.any (· ≤ u)) (runningSums ws).length := by
  intro i j hij hj hbelow
  rw [length_runningSums] at hj
  simp only [getElem?_runningSums, hj, show i < ws.length by omega, if_true, Option.any_some,
    decide_eq_true_eq] at hbelow ⊢
  have hsum := hs.prefixSum_nonneg hws
  exact hs.total.trans (hsum _) (hsum _) hu (hs.prefixSum_mono hws (by omega)) hbelow

/-- The rule picked is the one whose weight takes the running sum past the draw. -/
theorem exists_draw_of_pickRule (hs : NonnegSums W) (hdraw : draw.Below)
    (hweights : ∀ r ∈ rules, 0 ≤ weights.get r)
    (h : pickRule draw weights rules symbol source = (.ok r, source')) :
    ∃ (u : W) (n : Nat), draw (prefixSum (rules.map weights.get) rules.length) source =
        some (u, source') ∧ rules[n]? = some r ∧
      prefixSum (rules.map weights.get) n ≤ u ∧ u < prefixSum (rules.map weights.get) (n + 1) := by
  have hws : ∀ w ∈ rules.map weights.get, 0 ≤ w := List.forall_mem_map.2 hweights
  have hlength : (rules.map weights.get).length = rules.length := List.length_map ..
  simp only [pickRule, getLast?_runningSums, hlength] at h
  split at h
  · cases h
  · split at h
    · cases h
    · rename_i u source₁ hdrawn
      obtain ⟨hu, -⟩ := hdraw _ _ _ _ hdrawn
      have hparts := firstAbove_spec (hs.falls hws hu)
      split at h
      · rename_i q hq
        obtain ⟨hq', rfl⟩ := Prod.mk.inj h
        obtain rfl := Except.ok.inj hq'
        have hn := (List.getElem?_eq_some_iff.1 hq).1
        generalize firstAbove (fun i => (runningSums (rules.map weights.get))[i]?.any (· ≤ u))
          (runningSums (rules.map weights.get)).length = n at hq hn hparts
        refine ⟨u, n, hdrawn, hq, ?_, ?_⟩
        · cases n with
          | zero => exact hu
          | succ n =>
            have hlow := hparts.low n (by omega)
            rw [getElem?_runningSums, if_pos (by omega)] at hlow
            simpa using hlow
        · have hhigh := hparts.high n le_rfl (by rwa [length_runningSums, hlength])
          rw [getElem?_runningSums, if_pos (by omega)] at hhigh
          refine (hs.total.lt_iff hu (hs.prefixSum_nonneg hws _)).2 ?_
          simpa using hhigh
      · cases h

/-- What is picked weighs more than zero. -/
theorem pos_of_pickRule (hs : NonnegSums W) (hdraw : draw.Below)
    (hweights : ∀ r ∈ rules, 0 ≤ weights.get r)
    (h : pickRule draw weights rules symbol source = (.ok r, source')) :
    r ∈ rules ∧ 0 < weights.get r := by
  obtain ⟨u, n, hdrawn, hr, hle, hlt⟩ := exists_draw_of_pickRule hs hdraw hweights h
  have hmem := List.mem_of_getElem? hr
  have hsum := hs.prefixSum_nonneg (List.forall_mem_map.2 hweights)
  obtain ⟨hu, -⟩ := hdraw _ _ _ _ hdrawn
  refine ⟨hmem, ?_⟩
  by_contra hpos
  have hw : (rules.map weights.get)[n]? = some (weights.get r) := by rw [List.getElem?_map, hr]; rfl
  have hnext := prefixSum_succ hw
  have hstep := hs.add_le (hsum n) (hweights r hmem) hpos
  rw [← hnext] at hstep
  exact (hs.total.lt_iff hu (hsum _)).1 hlt (hs.total.trans (hsum _) (hsum _) hu hstep hle)

end Pick

end TabularParsing
