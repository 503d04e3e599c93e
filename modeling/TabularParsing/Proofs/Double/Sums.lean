import TabularParsing.Proofs.Double.UnitInterval

/-!
# Sums of doubles

Finite doubles are whole multiples of the least positive one, so the sum of two is rounded from a
whole number of such units. Rounding keeps the order, so among the doubles above minus infinity
sums grow with what is added, plus infinity included, and adding zero changes nothing.

## Main definitions

* `Double.Number`: what a double that is a number unpacks to.
* `Double.level`: a double as a whole number of the least positive one.

## Main statements

* `Double.totalOn_isNumber`: doubles that are numbers compare like their levels.
* `Double.add_le_add`: sums of doubles above minus infinity are monotone.
-/
namespace TabularParsing.Double

open Float.Model Float.Model.UnpackedFloat

/-! ## Units -/

/-- `m * 2 ^ e` in units of the least positive double. -/
def size (m : Nat) (e : Int) : Nat := m * 2 ^ (e + 1074).toNat

/-- The first value beyond the finite doubles. -/
def limit : Nat := size (2 ^ 52) 972

/-- The value in units of the least positive double, with the limit in place of infinity. -/
def units : UnpackedFloat → Int
  | .finite s m e _ => s.apply (size m e)
  | .infinity s => s.apply limit
  | _ => 0

section Size

variable {m m' : Nat} {e e' : Int}

theorem size_pos (hm : 0 < m) : 0 < size m e := Nat.mul_pos hm (Nat.two_pow_pos _)

theorem size_lt_size (h : Fits m e) (h' : Fits m' e') (he : e < e') : size m e < size m' e' := by
  have hle := h.le
  have hexponent : (e' + 1074).toNat = (e' - e - 1).toNat + 1 + (e + 1074).toNat := by omega
  have hnormal : 2 ^ 52 ≤ m' := h'.normal.resolve_right (by omega)
  have hpow : 0 < 2 ^ (e' - e - 1).toNat := Nat.two_pow_pos _
  have hm : m < m' * 2 ^ ((e' - e - 1).toNat + 1) := by
    calc m < 2 ^ 52 * 2 := h.lt
      _ ≤ m' * 2 := Nat.mul_le_mul_right 2 hnormal
      _ ≤ m' * 2 ^ ((e' - e - 1).toNat + 1) := by
        rw [Nat.pow_succ']
        exact Nat.mul_le_mul_left m' (Nat.le_mul_of_pos_right 2 hpow)
  rw [size, size, hexponent, Nat.pow_add, ← Nat.mul_assoc]
  exact Nat.mul_lt_mul_of_pos_right hm (Nat.two_pow_pos _)

/-- Doubles compare like their sizes. -/
theorem compare_size (h : Fits m e) (h' : Fits m' e') :
    compare (size m e) (size m' e') = (compare e e').then (compare m m') := by
  rcases lt_trichotomy e e' with he | rfl | he
  · rw [compare_lt_iff_lt.2 he, compare_lt_iff_lt.2 (size_lt_size h h' he)]
    rfl
  · have hpow : 0 < 2 ^ (e + 1074).toNat := Nat.two_pow_pos _
    rw [compare_eq_iff_eq.2 rfl, Ordering.eq_then, size, size]
    rcases lt_trichotomy m m' with hm | rfl | hm
    · rw [compare_lt_iff_lt.2 hm, compare_lt_iff_lt.2 (Nat.mul_lt_mul_of_pos_right hm hpow)]
    · simp
    · rw [compare_gt_iff_gt.2 hm, compare_gt_iff_gt.2 (Nat.mul_lt_mul_of_pos_right hm hpow)]
  · rw [compare_gt_iff_gt.2 he, compare_gt_iff_gt.2 (size_lt_size h' h he)]
    rfl

theorem size_le_size_of_rank_le (h : Fits m e) (h' : Fits m' e') (hle : rank m e ≤ rank m' e') :
    size m e ≤ size m' e' := by
  have hrank := compare_rank h h'
  rw [← compare_size h h'] at hrank
  rw [← compare_le_iff_le, ← hrank, compare_le_iff_le]
  exact hle

theorem fits_limit : Fits (2 ^ 52) 972 := ⟨by decide, by decide, .inl le_rfl⟩

theorem size_lt_limit (h : Fits m e) (he : e ≤ 971) : size m e < limit :=
  size_lt_size h fits_limit (by omega)

theorem limit_le_size (h : Fits m e) (he : 971 < e) : limit ≤ size m e := by
  rcases (show 972 ≤ e by omega).lt_or_eq with hlt | rfl
  · exact (size_lt_size fits_limit h hlt).le
  · exact Nat.mul_le_mul_right _ (h.normal.resolve_right (by decide))

end Size

/-! ## Rounding -/

/-- A whole number of units, rounded to the nearest double. -/
def nearestSize (n : Nat) : Nat := size (rounded n (-1074)).1 (rounded n (-1074)).2

theorem nearestSize_mono {n n' : Nat} (h : n ≤ n') : nearestSize n ≤ nearestSize n' :=
  size_le_size_of_rank_le (fits_rounded (.inr le_rfl)) (fits_rounded (.inr le_rfl))
    (rounded_mono (.inr le_rfl) h)

/-- The scale does not matter. -/
theorem rounded_size {n : Nat} {k : Int} (h : 2 ^ 52 ≤ n ∨ k ≤ -1074) (hn : n ≠ 0)
    (hk : -1074 ≤ k) : rounded (size n k) (-1074) = rounded n k := by
  have hscale := rounded_mul_two_pow h hn (k + 1074).toNat
  have hexponent : k - ((k + 1074).toNat : Int) = -1074 := by omega
  rwa [hexponent] at hscale

theorem nearestSize_size {m : Nat} {e : Int} (h : Fits m e) (hm : m ≠ 0) :
    nearestSize (size m e) = size m e := by
  rw [nearestSize, rounded_size (h.normal.imp_right Int.le_of_eq) hm h.le, rounded_of_fits h]

/-- A whole number of units, rounded to the nearest double or to infinity. -/
def settle (n : Int) : Int :=
  if 0 ≤ n then (min limit (nearestSize n.toNat) : Nat)
  else -(min limit (nearestSize (-n).toNat) : Nat)

theorem settle_mono {n n' : Int} (h : n ≤ n') : settle n ≤ settle n' := by
  have hpositive : nearestSize n.toNat ≤ nearestSize n'.toNat := nearestSize_mono (by omega)
  have hnegative : nearestSize (-n').toNat ≤ nearestSize (-n).toNat := nearestSize_mono (by omega)
  unfold settle
  split_ifs <;> omega

theorem nearestSize_zero : nearestSize 0 = 0 := by decide

theorem settle_zero : settle 0 = 0 := by simp [settle, nearestSize_zero]

theorem settle_apply (s : Sign) (n : Nat) :
    settle (s.apply n) = s.apply (min limit (nearestSize n) : Nat) := by
  cases s with
  | positive => exact if_pos (Int.natCast_nonneg n)
  | negative =>
    rcases Nat.eq_zero_or_pos n with rfl | hpos
    · simp [settle_zero, Sign.apply, nearestSize_zero]
    · have hneg : ¬(0 : Int) ≤ -n := by omega
      simp only [settle, Sign.apply, if_neg hneg, Int.neg_neg, Int.toNat_natCast]

/-! ## Numbers -/

/-- What a double that is a number unpacks to. -/
inductive Number : UnpackedFloat → Prop where
  | zero (s : Sign) : Number (.zero s)
  | finite {s : Sign} {m : Nat} {e : Int} {hm : 0 < m} :
      Fits m e → e ≤ 971 → Number (.finite s m e hm)
  | infinity (s : Sign) : Number (.infinity s)

theorem unpack_pack_infinity (s : Sign) :
    unpack .binary64 (pack .binary64 (.infinity s)) = .infinity s := by
  cases s <;> rfl

/-- A finite number that is too large is packed as infinity. -/
theorem unpack_pack_of_lt {s : Sign} {m : Nat} {e : Int} {hm : 0 < m} (he : 971 < e) :
    unpack .binary64 (pack .binary64 (.finite s m e hm)) = .infinity s := by
  have hpack : pack .binary64 (.finite s m e hm) = packedInfinity .binary64 s :=
    if_pos (show 2 ^ 11 ≤ (e + 1023 + 52).toNat + 1 by omega)
  rw [hpack]
  exact unpack_pack_infinity s

theorem Number.unpack_pack {u : UnpackedFloat} (hu : Number u) :
    unpack .binary64 (pack .binary64 u) = u := by
  cases hu with
  | zero s => exact unpack_pack_zero s
  | finite h he => exact unpack_pack_finite h he
  | infinity s => exact unpack_pack_infinity s

theorem units_unpack_pack {s : Sign} {m : Nat} {e : Int} {hm : 0 < m} (h : Fits m e) :
    Number (unpack .binary64 (pack .binary64 (.finite s m e hm))) ∧
      units (unpack .binary64 (pack .binary64 (.finite s m e hm))) =
        s.apply (min limit (size m e) : Nat) := by
  by_cases he : e ≤ 971
  · rw [unpack_pack_finite h he, min_eq_right (size_lt_limit h he).le]
    exact ⟨.finite h he, rfl⟩
  · rw [unpack_pack_of_lt (by omega), min_eq_left (limit_le_size h (by omega))]
    exact ⟨.infinity s, rfl⟩

section Compare

variable {a b : Int}

theorem some_lt_eq_compare (h : a < b) : some Ordering.lt = some (compare a b) :=
  congrArg some (compare_lt_iff_lt.2 h).symm

theorem some_gt_eq_compare (h : b < a) : some Ordering.gt = some (compare a b) :=
  congrArg some (compare_gt_iff_gt.2 h).symm

theorem compare_natCast (a b : Nat) : compare (a : Int) b = compare a b := by
  rcases lt_trichotomy a b with h | rfl | h
  · rw [compare_lt_iff_lt.2 h, compare_lt_iff_lt.2 (Int.ofNat_lt.2 h)]
  · rw [compare_eq_iff_eq.2 rfl, compare_eq_iff_eq.2 rfl]
  · rw [compare_gt_iff_gt.2 h, compare_gt_iff_gt.2 (Int.ofNat_lt.2 h)]

theorem compare_neg_natCast (a b : Nat) : compare (-(a : Int)) (-b) = (compare a b).swap := by
  rcases lt_trichotomy a b with h | rfl | h
  · rw [compare_lt_iff_lt.2 h, compare_gt_iff_gt.2 (Int.neg_lt_neg (Int.ofNat_lt.2 h))]
    rfl
  · rw [compare_eq_iff_eq.2 rfl, compare_eq_iff_eq.2 rfl]
    rfl
  · rw [compare_gt_iff_gt.2 h, compare_lt_iff_lt.2 (Int.neg_lt_neg (Int.ofNat_lt.2 h))]
    rfl

end Compare

theorem Number.units_bounds {u : UnpackedFloat} (hu : Number u) :
    -limit ≤ units u ∧ units u ≤ limit := by
  cases hu with
  | zero s => exact ⟨Int.neg_nonpos_of_nonneg (Int.natCast_nonneg _), Int.natCast_nonneg _⟩
  | infinity s => cases s <;> simp only [units, Sign.apply] <;> omega
  | @finite s m e hm h he =>
    have hlt := size_lt_limit h he
    cases s <;> simp only [units, Sign.apply] <;> omega

theorem units_infinity_not_between (s : Sign) :
    ¬(-limit < units (.infinity s) ∧ units (.infinity s) < limit) := by
  cases s <;> simp only [units, Sign.apply] <;> omega

/-- Numbers compare like their units. -/
theorem Number.compare_eq {u v : UnpackedFloat} (hu : Number u) (hv : Number v) :
    u.compare v = some (compare (units u) (units v)) := by
  have hlimit : 0 < limit := size_pos (by decide)
  cases hu with
  | zero s =>
    cases hv with
    | zero s' => rfl
    | infinity s' =>
      cases s'
      · exact some_gt_eq_compare (show -(limit : Int) < 0 by omega)
      · exact some_lt_eq_compare (show (0 : Int) < limit by omega)
    | @finite s' m e hm h he =>
      have hpos : 0 < size m e := size_pos hm
      cases s'
      · exact some_gt_eq_compare (show -(size m e : Int) < 0 by omega)
      · exact some_lt_eq_compare (show (0 : Int) < size m e by omega)
  | infinity s =>
    cases hv with
    | zero s' =>
      cases s
      · exact some_lt_eq_compare (show -(limit : Int) < 0 by omega)
      · exact some_gt_eq_compare (show (0 : Int) < limit by omega)
    | infinity s' =>
      cases s <;> cases s'
      · exact congrArg some (compare_eq_iff_eq.2 rfl).symm
      · exact some_lt_eq_compare (show -(limit : Int) < limit by omega)
      · exact some_gt_eq_compare (show -(limit : Int) < limit by omega)
      · exact congrArg some (compare_eq_iff_eq.2 rfl).symm
    | @finite s' m e hm h he =>
      have hlt : size m e < limit := size_lt_limit h he
      cases s <;> cases s'
      · exact some_lt_eq_compare (show -(limit : Int) < -size m e by omega)
      · exact some_lt_eq_compare (show -(limit : Int) < size m e by omega)
      · exact some_gt_eq_compare (show -(size m e : Int) < limit by omega)
      · exact some_gt_eq_compare (show (size m e : Int) < limit by omega)
  | @finite s m e hm h he =>
    have hlt : size m e < limit := size_lt_limit h he
    have hpos : 0 < size m e := size_pos hm
    cases hv with
    | zero s' =>
      cases s
      · exact some_lt_eq_compare (show -(size m e : Int) < 0 by omega)
      · exact some_gt_eq_compare (show (0 : Int) < size m e by omega)
    | infinity s' =>
      cases s <;> cases s'
      · exact some_gt_eq_compare (show -(limit : Int) < -size m e by omega)
      · exact some_lt_eq_compare (show -(size m e : Int) < limit by omega)
      · exact some_gt_eq_compare (show -(limit : Int) < size m e by omega)
      · exact some_lt_eq_compare (show (size m e : Int) < limit by omega)
    | @finite s' m' e' hm' h' he' =>
      have hpos' : 0 < size m' e' := size_pos hm'
      cases s <;> cases s'
      · change some ((compare e e').then (compare m m')).swap = _
        rw [← compare_size h h', ← compare_neg_natCast]
        rfl
      · exact some_lt_eq_compare (show -(size m e : Int) < size m' e' by omega)
      · exact some_gt_eq_compare (show -(size m' e' : Int) < size m e by omega)
      · change some ((compare e e').then (compare m m')) = _
        rw [← compare_size h h', ← compare_natCast]
        rfl

/-! ## Sums -/

/-- A number settles where it is. -/
theorem Number.settle_units {u : UnpackedFloat} (hu : Number u)
    (hfinite : -limit < units u ∧ units u < limit) : settle (units u) = units u := by
  cases hu with
  | zero s => exact settle_zero
  | infinity s => exact absurd hfinite (units_infinity_not_between s)
  | @finite s m e hm h he =>
    rw [units, settle_apply, nearestSize_size h hm.ne', min_eq_right (size_lt_limit h he).le]

theorem round_eq {n : Nat} {k : Int} (s : Sign) (hn : n ≠ 0) (hk : -1074 ≤ k) :
    UnpackedFloat.round .binary64 s n k =
      if h : (rounded (size n k) (-1074)).1 = 0 then .zero s
      else .finite s (rounded (size n k) (-1074)).1 (rounded (size n k) (-1074)).2
        (Nat.pos_of_ne_zero h) := by
  have hround : UnpackedFloat.round .binary64 s n k =
      roundWithAccuracy .binary64 s
        (n <<< (k - max (n.log2 + 1 + k - 53) (-1074)).toNat)
        (k - (k - max (n.log2 + 1 + k - 53) (-1074)).toNat) .exact := rfl
  generalize hj : (k - max (n.log2 + 1 + k - 53) (-1074)).toNat = j at hround
  have hn' : n * 2 ^ j ≠ 0 := Nat.mul_ne_zero hn (Nat.two_pow_pos j).ne'
  have hlog : 52 ≤ n.log2 + j ∨ k - j ≤ -1074 := by omega
  have hbits : 2 ^ 52 ≤ n * 2 ^ j ∨ k - j ≤ -1074 := by
    refine hlog.imp_left fun hle => ?_
    calc 2 ^ 52 ≤ 2 ^ (n.log2 + j) := Nat.pow_le_pow_right (by decide) hle
      _ = 2 ^ n.log2 * 2 ^ j := Nat.pow_add ..
      _ ≤ n * 2 ^ j := Nat.mul_le_mul_right _ (Nat.log2_self_le hn)
  have hsize : size (n * 2 ^ j) (k - j) = size n k := by
    have hexponent : (k + 1074).toNat = j + (k - j + 1074).toNat := by omega
    rw [size, size, hexponent, Nat.pow_add, Nat.mul_assoc]
  rw [hround, Nat.shiftLeft_eq, roundWithAccuracy_eq, ← hsize,
    rounded_size hbits hn' (by omega)]

theorem units_round {n : Nat} {k : Int} (s : Sign) (hn : n ≠ 0) (hk : -1074 ≤ k) :
    Number (unpack .binary64 (pack .binary64 (UnpackedFloat.round .binary64 s n k))) ∧
      units (unpack .binary64 (pack .binary64 (UnpackedFloat.round .binary64 s n k))) =
        s.apply (min limit (nearestSize (size n k)) : Nat) := by
  rw [round_eq s hn hk]
  split
  · rename_i hzero
    rw [unpack_pack_zero, nearestSize, hzero]
    refine ⟨.zero s, ?_⟩
    cases s <;> simp [units, size, Sign.apply]
  · exact units_unpack_pack (fits_rounded (.inr le_rfl))

theorem units_normalize (n : Int) {k : Int} (hk : -1074 ≤ k) :
    Number (unpack .binary64 (pack .binary64 (normalize .binary64 n k .positive))) ∧
      units (unpack .binary64 (pack .binary64 (normalize .binary64 n k .positive))) =
        settle (n * (2 ^ (k + 1074).toNat : Nat)) := by
  rcases lt_trichotomy n 0 with hn | rfl | hn
  · obtain ⟨m, rfl⟩ : ∃ m : Nat, n = -m := ⟨n.natAbs, by omega⟩
    have hsize : -(m : Int) * (2 ^ (k + 1074).toNat : Nat) = Sign.negative.apply (size m k) := by
      rw [Int.neg_mul, ← Int.natCast_mul]
      rfl
    have hround := units_round .negative (show m ≠ 0 by omega) hk
    rw [hsize, settle_apply, UnpackedFloat.normalize, compare_lt_iff_lt.2 hn]
    simp only [Int.neg_neg, Int.toNat_natCast]
    exact hround
  · have hzero : normalize .binary64 0 k .positive = .zero .positive := rfl
    rw [Int.zero_mul, hzero, unpack_pack_zero, settle_zero]
    exact ⟨.zero .positive, rfl⟩
  · obtain ⟨m, rfl⟩ := Int.eq_ofNat_of_zero_le hn.le
    have hsize : (m : Int) * (2 ^ (k + 1074).toNat : Nat) = Sign.positive.apply (size m k) :=
      (Int.natCast_mul ..).symm
    have hround := units_round .positive (show m ≠ 0 by omega) hk
    rw [hsize, settle_apply, UnpackedFloat.normalize, compare_gt_iff_gt.2 hn]
    exact hround

theorem apply_mul (s : Sign) (a b : Nat) : s.apply (a * b : Nat) = s.apply a * b := by
  cases s with
  | positive => exact Int.natCast_mul a b
  | negative => rw [Sign.apply, Sign.apply, Int.natCast_mul, Int.neg_mul]

/-- The sum of two finite numbers is rounded from the sum of their units. -/
theorem Number.units_add {u v : UnpackedFloat} (hu : Number u) (hv : Number v)
    (hfinite : -limit < units u ∧ units u < limit) (hfinite' : -limit < units v ∧ units v < limit) :
    Number (unpack .binary64 (pack .binary64 (u.add .binary64 v))) ∧
      units (unpack .binary64 (pack .binary64 (u.add .binary64 v))) = settle (units u + units v) := by
  cases hu with
  | infinity s => exact absurd hfinite (units_infinity_not_between s)
  | zero s =>
    cases hv with
    | infinity s' => exact absurd hfinite' (units_infinity_not_between s')
    | zero s' =>
      have hsum : ∃ t, (UnpackedFloat.zero s).add .binary64 (.zero s') = .zero t := by
        cases s <;> cases s' <;> exact ⟨_, rfl⟩
      obtain ⟨t, hsum⟩ := hsum
      have hunits (t : Sign) : units (.zero t) = 0 := rfl
      rw [hsum, unpack_pack_zero, hunits, hunits, hunits, Int.add_zero, settle_zero]
      exact ⟨.zero t, rfl⟩
    | @finite s' m e hm h he =>
      have hsum : (UnpackedFloat.zero s).add .binary64 (.finite s' m e hm) = .finite s' m e hm := rfl
      have hv : Number (.finite s' m e hm) := .finite h he
      have hunits : units (.zero s) = 0 := rfl
      rw [hsum, hv.unpack_pack, hunits, Int.zero_add, hv.settle_units hfinite']
      exact ⟨hv, rfl⟩
  | @finite s m e hm h he =>
    have hu : Number (.finite s m e hm) := .finite h he
    cases hv with
    | infinity s' => exact absurd hfinite' (units_infinity_not_between s')
    | zero s' =>
      have hsum : (UnpackedFloat.finite s m e hm).add .binary64 (.zero s') = .finite s m e hm := rfl
      have hunits : units (.zero s') = 0 := rfl
      rw [hsum, hu.unpack_pack, hunits, Int.add_zero, hu.settle_units hfinite]
      exact ⟨hu, rfl⟩
    | @finite s' m' e' hm' h' he' =>
      have hk : -1074 ≤ min e e' := le_min h.le h'.le
      have hsum : (UnpackedFloat.finite s m e hm).add .binary64 (.finite s' m' e' hm') =
          normalize .binary64 (s.apply (m <<< (e - min e e').toNat : Nat) +
            s'.apply (m' <<< (e' - min e e').toNat : Nat)) (min e e') .positive := rfl
      have hscale {l : Nat} {f : Int} (hf : min e e' ≤ f) (t : Sign) :
          t.apply (l <<< (f - min e e').toNat : Nat) * (2 ^ (min e e' + 1074).toNat : Nat) =
            t.apply (size l f) := by
        have hexponent : (f + 1074).toNat = (f - min e e').toNat + (min e e' + 1074).toNat := by
          omega
        rw [← apply_mul, Nat.shiftLeft_eq, Nat.mul_assoc, ← Nat.pow_add, ← hexponent, size]
      have hnormalize := units_normalize (s.apply (m <<< (e - min e e').toNat : Nat) +
        s'.apply (m' <<< (e' - min e e').toNat : Nat)) hk
      rw [hsum]
      rwa [Int.add_mul, hscale (min_le_left ..), hscale (min_le_right ..)] at hnormalize

theorem Number.eq_infinity {u : UnpackedFloat} (hu : Number u) (h : units u = limit) :
    u = .infinity .positive := by
  have hlimit : 0 < limit := size_pos (by decide)
  cases hu with
  | zero s =>
    have hzero : (0 : Int) = limit := h
    omega
  | infinity s =>
    cases s with
    | positive => rfl
    | negative =>
      have hneg : -(limit : Int) = limit := h
      omega
  | @finite s m e hm hfits he =>
    have hlt : size m e < limit := size_lt_limit hfits he
    cases s <;> simp only [units, Sign.apply] at h <;> omega

/-- Whatever is added to infinity disappears, but for the opposite infinity. -/
theorem Number.add_infinity {u : UnpackedFloat} (hu : Number u) (h : -limit < units u) :
    u.add .binary64 (.infinity .positive) = .infinity .positive ∧
      (UnpackedFloat.infinity .positive).add .binary64 u = .infinity .positive := by
  cases hu with
  | zero s => exact ⟨rfl, rfl⟩
  | finite _ _ => exact ⟨rfl, rfl⟩
  | infinity s =>
    cases s with
    | positive => exact ⟨rfl, rfl⟩
    | negative => exact absurd h (lt_irrefl _)

/-! ## Doubles -/

theorem exponent_le_of_unpack {b : BitVec 64} {s : Sign} {m : Nat} {e : Int} {hm : 0 < m}
    (h : unpack .binary64 b = .finite s m e hm) : e ≤ 971 := by
  have hbias : (Format.binary64.exponentBias : Int) = 1023 := rfl
  have hlt : (@unpackExponent .binary64 b).toNat < 2 ^ 11 := (@unpackExponent .binary64 b).isLt
  simp only [UnpackedFloat.unpack] at h
  split at h
  · split at h <;> cases h
  · rename_i hones
    have hne : (@unpackExponent .binary64 b).toNat ≠ 2047 := fun heq =>
      hones (BitVec.eq_of_toNat_eq (heq.trans rfl))
    split at h
    · rename_i hzero
      split at h
      · cases h
      · simp only [finite.injEq, hzero] at h
        obtain ⟨-, -, rfl⟩ := h
        simp [hbias]
    · simp only [finite.injEq] at h
      obtain ⟨-, -, rfl⟩ := h
      omega

/-- The double is a number. -/
def IsNumber (x : Float) : Prop := Number x.toModel.unpack

/-- The value of a double in units of the least positive one. -/
def level (x : Float) : Int := units x.toModel.unpack

theorem isNumber_or (x : Float) : IsNumber x ∨ x.toModel.unpack = .notANumber := by
  unfold IsNumber
  cases h : x.toModel.unpack with
  | notANumber => exact .inr rfl
  | zero s => exact .inl (.zero s)
  | infinity s => exact .inl (.infinity s)
  | finite s m e hm => exact .inl (.finite (fits_of_unpack h) (exponent_le_of_unpack h))

section Float

variable {x x' y y' : Float}

/-- What compares at all is a number. -/
theorem isNumber_of_le (h : x ≤ y) : IsNumber x ∧ IsNumber y := by
  rw [le_iff] at h
  refine ⟨(isNumber_or x).resolve_right fun hx => ?_, (isNumber_or y).resolve_right fun hy => ?_⟩
  · rw [hx] at h
    cases h
  · rw [hy] at h
    cases hx : x.toModel.unpack <;> rw [hx] at h <;> cases h

theorem isNumber_of_lt (h : x < y) : IsNumber x ∧ IsNumber y := by
  rw [lt_iff] at h
  refine ⟨(isNumber_or x).resolve_right fun hx => ?_, (isNumber_or y).resolve_right fun hy => ?_⟩
  · rw [hx] at h
    cases h
  · rw [hy] at h
    cases hx : x.toModel.unpack <;> rw [hx] at h <;> cases h

theorem le_iff_level (hx : IsNumber x) (hy : IsNumber y) : x ≤ y ↔ level x ≤ level y := by
  rw [le_iff, UnpackedFloat.le, Number.compare_eq hx hy]
  simp [level, Int.isLE_compare]

theorem lt_iff_level (hx : IsNumber x) (hy : IsNumber y) : x < y ↔ level x < level y := by
  rw [lt_iff, UnpackedFloat.lt, Number.compare_eq hx hy]
  simp [level, Int.compare_eq_lt]

theorem lt_of_lt_of_lt {z : Float} (h : x < y) (h' : y < z) : x < z := by
  obtain ⟨hx, hy⟩ := isNumber_of_lt h
  obtain ⟨-, hz⟩ := isNumber_of_lt h'
  rw [lt_iff_level hx hy] at h
  rw [lt_iff_level hy hz] at h'
  rw [lt_iff_level hx hz]
  exact h.trans h'

theorem beq_iff_level (hx : IsNumber x) (hy : IsNumber y) :
    (x == y) = true ↔ level x = level y := by
  have hbeq : (x == y) = x.toModel.unpack.beq y.toModel.unpack := rfl
  rw [hbeq, UnpackedFloat.beq, Number.compare_eq hx hy]
  simp [level]

/-- Numbers compare like their levels. -/
theorem totalOn_isNumber : TotalOn IsNumber where
  trans hx hy hz hxy hyz := by
    rw [le_iff_level hx hy] at hxy
    rw [le_iff_level hy hz] at hyz
    exact (le_iff_level hx hz).2 (hxy.trans hyz)
  total hx hy := by
    rw [le_iff_level hx hy, le_iff_level hy hx]
    exact Int.le_total _ _
  lt_iff hx hy := by
    rw [lt_iff_level hx hy, le_iff_level hy hx, Int.not_le]

/-- Minus infinity. -/
def never : Float := -(1.0 / 0.0)

theorem level_never : level never = -limit := rfl

/-- Above minus infinity are the finite numbers and plus infinity. -/
theorem never_lt_iff : never < x ↔ IsNumber x ∧ -limit < level x := by
  have hnever : IsNumber never := .infinity .negative
  constructor
  · intro h
    obtain ⟨-, hx⟩ := isNumber_of_lt h
    exact ⟨hx, (lt_iff_level hnever hx).1 h⟩
  · rintro ⟨hx, h⟩
    exact (lt_iff_level hnever hx).2 h

theorem bne_never_of_lt (h : never < x) : (x != never) = true := by
  have hnever : IsNumber never := .infinity .negative
  obtain ⟨hx, hlevel⟩ := never_lt_iff.1 h
  rw [bne, Bool.not_eq_true', ← Bool.not_eq_true, beq_iff_level hx hnever, level_never]
  exact hlevel.ne'

theorem totalOn_never_lt : TotalOn fun x : Float => never < x :=
  totalOn_isNumber.mono fun h => (never_lt_iff.1 h).1

theorem unpack_add (x y : Float) : (x + y).toModel.unpack =
    unpack .binary64 (pack .binary64 (x.toModel.unpack.add .binary64 y.toModel.unpack)) := rfl

/-- Plus infinity plus a number is plus infinity. -/
theorem level_add_of_eq_limit (hx : never < x) (hy : never < y)
    (h : level x = limit ∨ level y = limit) : IsNumber (x + y) ∧ level (x + y) = limit := by
  rw [never_lt_iff] at hx hy
  have hsum : (x + y).toModel.unpack = .infinity .positive := by
    rw [unpack_add]
    rcases h with h | h
    · rw [Number.eq_infinity hx.1 h, (Number.add_infinity hy.1 hy.2).2, unpack_pack_infinity]
    · rw [Number.eq_infinity hy.1 h, (Number.add_infinity hx.1 hx.2).1, unpack_pack_infinity]
  rw [IsNumber, level, hsum]
  exact ⟨.infinity _, rfl⟩

/-- The sum of two finite numbers is rounded from the exact sum. -/
theorem level_add (hx : never < x) (hy : never < y) (h : level x < limit) (h' : level y < limit) :
    IsNumber (x + y) ∧ level (x + y) = settle (level x + level y) := by
  rw [never_lt_iff] at hx hy
  rw [IsNumber, level, unpack_add]
  exact Number.units_add hx.1 hy.1 ⟨hx.2, h⟩ ⟨hy.2, h'⟩

theorem level_le_limit (hx : never < x) : level x ≤ limit := (never_lt_iff.1 hx).1.units_bounds.2

theorem isNumber_add (hx : never < x) (hy : never < y) : IsNumber (x + y) := by
  by_cases h : level x = limit ∨ level y = limit
  · exact (level_add_of_eq_limit hx hy h).1
  · have hx' := level_le_limit hx
    have hy' := level_le_limit hy
    exact (level_add hx hy (by omega) (by omega)).1

/-- Sums are monotone. -/
theorem add_le_add (hx : never < x) (hx' : never < x') (hy : never < y) (hy' : never < y')
    (hxx' : x ≤ x') (hyy' : y ≤ y') : x + y ≤ x' + y' := by
  rw [le_iff_level (never_lt_iff.1 hx).1 (never_lt_iff.1 hx').1] at hxx'
  rw [le_iff_level (never_lt_iff.1 hy).1 (never_lt_iff.1 hy').1] at hyy'
  have hsum := isNumber_add hx hy
  rw [le_iff_level hsum (isNumber_add hx' hy')]
  have hlimit := level_le_limit hx'
  have hlimit' := level_le_limit hy'
  by_cases h : level x' = limit ∨ level y' = limit
  · rw [(level_add_of_eq_limit hx' hy' h).2]
    exact hsum.units_bounds.2
  · rw [(level_add hx hy (by omega) (by omega)).2, (level_add hx' hy' (by omega) (by omega)).2]
    exact settle_mono (by omega)

/-- Adding zero changes nothing. -/
theorem level_add_of_level_eq_zero (hx : never < x) (hy : never < y) (h : level y = 0) :
    level (x + y) = level x := by
  have hlimit : 0 < limit := size_pos (by decide)
  by_cases hx' : level x = limit
  · rw [(level_add_of_eq_limit hx hy (.inl hx')).2, hx']
  · have hle := level_le_limit hx
    obtain ⟨hnumber, hlt⟩ := never_lt_iff.1 hx
    rw [(level_add hx hy (by omega) (by omega)).2, h, Int.add_zero]
    exact hnumber.settle_units ⟨hlt, by unfold level at hle hx'; omega⟩

theorem nonneg_iff : 0 ≤ x ↔ IsNumber x ∧ 0 ≤ level x := by
  have hzero : IsNumber 0 := .zero .positive
  constructor
  · intro h
    obtain ⟨-, hx⟩ := isNumber_of_le h
    exact ⟨hx, (le_iff_level hzero hx).1 h⟩
  · rintro ⟨hx, h⟩
    exact (le_iff_level hzero hx).2 h

theorem never_lt_of_nonneg (h : 0 ≤ x) : never < x := by
  have hlimit : 0 < limit := size_pos (by decide)
  obtain ⟨hx, hlevel⟩ := nonneg_iff.1 h
  exact never_lt_iff.2 ⟨hx, by omega⟩

/-- Adding a number from zero on does not lead down. -/
theorem level_le_level_add (hx : never < x) (hy : 0 ≤ y) : level x ≤ level (x + y) := by
  have hzero : never < 0 := never_lt_of_nonneg (by decide)
  have hy' := never_lt_of_nonneg hy
  have hxx : x ≤ x := totalOn_never_lt.refl hx
  have hsum := add_le_add hx hx hzero hy' hxx hy
  rwa [le_iff_level (isNumber_add hx hzero) (isNumber_add hx hy'),
    level_add_of_level_eq_zero hx hzero rfl] at hsum

end Float

end TabularParsing.Double
