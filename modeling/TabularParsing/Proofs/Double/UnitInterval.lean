import Mathlib.Order.Compare
import TabularParsing.Proofs.Double.Rounding
import TabularParsing.Proofs.Ranking

/-!
# Doubles between zero and one

The doubles between zero and one are the two zeros and the positive doubles up to `2 ^ 52` units of
the exponent `-52`. They compare by exponent, then by significand. Their products are rounded to
doubles between zero and one that grow with their factors and exceed neither.

## Main definitions

* `Double.UpToOne`: what a double between zero and one unpacks to.
* `Double.height`: how these compare.

## Main statements

* `Double.inUnit_iff_upToOne`: these are all doubles between zero and one.
* `Double.unitProducts_double`: their products satisfy all that is asked of weights.
-/
namespace TabularParsing.Double

open Float.Model Float.Model.UnpackedFloat

/-! ## Packing -/

theorem toNat_implicit_append (m : BitVec 52) : (1#1 ++ m).toNat = 2 ^ 52 + m.toNat := by
  rw [BitVec.toNat_append, ← Nat.shiftLeft_add_eq_or_of_lt m.isLt]
  rfl

theorem unpackSign_packComponents {spec : Format} (s : Sign) (e : BitVec spec.exponentBits)
    (m : BitVec spec.mantissaBitsWithoutImplicit) :
    Sign.ofBitVec (unpackSign (packComponents spec s e m)) = s := by
  have h : unpackSign (packComponents spec s e m) = s.toBitVec := by
    apply BitVec.eq_of_getLsbD_eq
    intro i hi
    obtain rfl : i = 0 := by omega
    simp [unpackSign, packComponents, BitVec.getLsbD_append, BitVec.getElem_append]
  rw [h]
  cases s <;> rfl

/-- What unpacks to a finite number has significand and exponent of a double. -/
theorem fits_of_unpack {b : BitVec 64} {s : Sign} {m : Nat} {e : Int} {hm : 0 < m}
    (h : unpack .binary64 b = .finite s m e hm) : Fits m e := by
  have hexponent : (Format.binary64.exponentBias : Int) = 1023 := rfl
  have hlt : (@unpackMantissa .binary64 b).toNat < 2 ^ 52 := (@unpackMantissa .binary64 b).isLt
  simp only [UnpackedFloat.unpack] at h
  split at h
  · split at h <;> cases h
  · split at h
    · rename_i hzero
      split at h
      · cases h
      · simp only [finite.injEq, hzero] at h
        obtain ⟨-, rfl, rfl⟩ := h
        exact ⟨hlt.trans (by decide), by simp [hexponent], .inr (by simp [hexponent])⟩
    · rename_i hzero
      simp only [finite.injEq, toNat_implicit_append] at h
      obtain ⟨-, rfl, rfl⟩ := h
      have hpos : 0 < (@unpackExponent .binary64 b).toNat := by
        simpa [BitVec.toNat_pos, BitVec.pos_iff_ne_zero] using hzero
      refine ⟨by omega, by omega, .inl (by omega)⟩

theorem unpack_pack_zero (s : Sign) : unpack .binary64 (pack .binary64 (.zero s)) = .zero s := by
  cases s <;> rfl

/-- A significand of 53 bits and an exponent field that is neither least nor greatest unpack to
themselves. -/
theorem unpack_packComponents_normal {s : Sign} {m x : Nat} {hm : 0 < m} (hlt : m < 2 ^ 53)
    (hnormal : 2 ^ 52 ≤ m) (hpos : 0 < x) (hx : x < 2047) :
    unpack .binary64 (packComponents .binary64 s (BitVec.ofNat 11 x) (BitVec.ofNat 52 m)) =
      .finite s m (x - 1075) hm := by
  have hbias : (Format.binary64.exponentBias : Int) = 1023 := rfl
  have hmantissa : (1#1 ++ BitVec.ofNat 52 m).toNat = m := by
    rw [toNat_implicit_append, BitVec.toNat_ofNat]
    omega
  have hexponent : x % 2 ^ 11 = x := Nat.mod_eq_of_lt (by omega)
  have hzero : BitVec.ofNat 11 x ≠ 0#11 := by
    rw [Ne, ← BitVec.toNat_inj, BitVec.toNat_ofNat, BitVec.toNat_ofNat]
    omega
  have hones : BitVec.ofNat 11 x ≠ -1#11 := by
    rw [Ne, ← BitVec.toNat_inj, BitVec.toNat_ofNat]
    simp
    omega
  simp only [UnpackedFloat.unpack, unpackExponent_packComponents, unpackMantissa_packComponents,
    unpackSign_packComponents, if_neg hzero, if_neg hones, finite.injEq, BitVec.toNat_ofNat, hbias,
    hexponent]
  refine ⟨trivial, hmantissa, ?_⟩
  omega

/-- A smaller significand and the least exponent field unpack to the least exponent. -/
theorem unpack_packComponents_subnormal {s : Sign} {m : Nat} {hm : 0 < m} (hlt : m < 2 ^ 52) :
    unpack .binary64 (packComponents .binary64 s 0#11 (BitVec.ofNat 52 m)) =
      .finite s m (-1074) hm := by
  have hbias : (Format.binary64.exponentBias : Int) = 1023 := rfl
  have hmantissa : (BitVec.ofNat 52 m).toNat = m := by
    rw [BitVec.toNat_ofNat]
    omega
  have hzero : BitVec.ofNat 52 m ≠ 0#52 := by
    rw [Ne, ← BitVec.toNat_inj, hmantissa]
    simp
    omega
  simp only [UnpackedFloat.unpack, unpackExponent_packComponents, unpackMantissa_packComponents,
    unpackSign_packComponents, hbias]
  simp [hzero, hmantissa]

/-- A finite double is what it was packed from. -/
theorem unpack_pack_finite {s : Sign} {m : Nat} {e : Int} {hm : 0 < m} (hfits : Fits m e)
    (he : e ≤ 971) :
    unpack .binary64 (pack .binary64 (.finite s m e hm)) = .finite s m e hm := by
  obtain ⟨hlt, hle, hnormal⟩ := hfits
  have hfinite : ¬2 ^ 11 ≤ (e + 1023 + 52).toNat + 1 := by omega
  have hlogNormal : m.log2 + 1 = 53 ↔ 2 ^ 52 ≤ m := by
    have hlog : m.log2 < 53 := (Nat.log2_lt hm.ne').2 hlt
    rw [← Nat.le_log2 hm.ne']
    omega
  have hpack : pack .binary64 (.finite s m e hm) =
      if 2 ^ 52 ≤ m then
        packComponents .binary64 s (BitVec.ofNat 11 (e + 1023 + 52).toNat) (BitVec.ofNat 52 m)
      else packComponents .binary64 s 0#11 (BitVec.ofNat 52 m) := by
    simp only [← hlogNormal]
    exact if_neg hfinite
  rw [hpack]
  split
  · rename_i hnormal
    have hexponent : ((e + 1023 + 52).toNat : Int) - 1075 = e := by omega
    rw [unpack_packComponents_normal hlt hnormal (by omega) (by omega), hexponent]
  · rename_i hsubnormal
    obtain rfl : e = -1074 := hnormal.resolve_left hsubnormal
    exact unpack_packComponents_subnormal (Nat.lt_of_not_le hsubnormal)

/-! ## Zero to one -/

/-- The two zeros and the positive doubles up to one. -/
inductive UpToOne : UnpackedFloat → Prop where
  | zero (s : Sign) : UpToOne (.zero s)
  | finite {m : Nat} {e : Int} {hm : 0 < m} :
      Fits m e → rank m e ≤ rank (2 ^ 52) (-52) → UpToOne (.finite .positive m e hm)

theorem compare_rank {m m' : Nat} {e e' : Int} (h : Fits m e) (h' : Fits m' e') :
    compare (rank m e) (rank m' e') = (compare e e').then (compare m m') := by
  obtain ⟨hlt, hle, -⟩ := h
  obtain ⟨hlt', hle', -⟩ := h'
  rcases lt_trichotomy e e' with he | rfl | he
  · have hrank : rank m e < rank m' e' := by
      unfold rank
      omega
    rw [compare_lt_iff_lt.2 he, compare_lt_iff_lt.2 hrank]
    rfl
  · rw [compare_eq_iff_eq.2 rfl, Ordering.eq_then, rank, rank]
    rcases lt_trichotomy m m' with hm | rfl | hm
    · rw [compare_lt_iff_lt.2 hm, compare_lt_iff_lt.2 (Nat.add_lt_add_left hm _)]
    · simp
    · rw [compare_gt_iff_gt.2 hm, compare_gt_iff_gt.2 (Nat.add_lt_add_left hm _)]
  · have hrank : rank m' e' < rank m e := by
      unfold rank
      omega
    rw [compare_gt_iff_gt.2 he, compare_gt_iff_gt.2 hrank]
    rfl

theorem exponent_le {m : Nat} {e : Int} (h : rank m e ≤ rank (2 ^ 52) (-52)) : e ≤ -52 := by
  unfold rank at h
  omega

/-- Where a double between zero and one stands among them. -/
def height : UnpackedFloat → Nat
  | .finite _ m e _ => rank m e
  | _ => 0

namespace UpToOne

variable {u v : UnpackedFloat}

theorem one : UpToOne (.finite .positive (2 ^ 52) (-52) (Nat.two_pow_pos 52)) :=
  .finite ⟨by decide, by decide, .inl le_rfl⟩ le_rfl

theorem height_le_one (h : UpToOne u) : height u ≤ rank (2 ^ 52) (-52) := by
  cases h with
  | zero s => exact Nat.zero_le _
  | finite _ hle => exact hle

theorem unpack_pack (h : UpToOne u) : unpack .binary64 (pack .binary64 u) = u := by
  cases h with
  | zero s => exact unpack_pack_zero s
  | finite hfits hle => exact unpack_pack_finite hfits ((exponent_le hle).trans (by decide))

theorem compare_eq (hu : UpToOne u) (hv : UpToOne v) :
    u.compare v = some (compare (height u) (height v)) := by
  cases hu with
  | zero s =>
    cases hv with
    | zero s' => rfl
    | @finite m e hm =>
      have hlt : 0 < rank m e := Nat.add_pos_right _ hm
      exact congrArg some (compare_lt_iff_lt.2 hlt).symm
  | @finite m e hm hfits =>
    cases hv with
    | zero s' =>
      have hlt : 0 < rank m e := Nat.add_pos_right _ hm
      exact congrArg some (compare_gt_iff_gt.2 hlt).symm
    | @finite m' e' hm' hfits' =>
      exact congrArg some (compare_rank hfits hfits').symm

theorem le_iff (hu : UpToOne u) (hv : UpToOne v) : u.le v = true ↔ height u ≤ height v := by
  rw [UnpackedFloat.le, hu.compare_eq hv]
  simp [Nat.isLE_compare]

theorem lt_iff (hu : UpToOne u) (hv : UpToOne v) : u.lt v = true ↔ height u < height v := by
  rw [UnpackedFloat.lt, hu.compare_eq hv]
  simp [Nat.compare_eq_lt]

/-- A double between zero and one, as doubles compare. -/
theorem of_le (hu : ∀ s m e hm, u = .finite s m e hm → Fits m e)
    (hzero : (UnpackedFloat.zero .positive).le u = true)
    (hone : u.le (.finite .positive (2 ^ 52) (-52) (Nat.two_pow_pos 52)) = true) : UpToOne u := by
  cases u with
  | zero s => exact .zero s
  | notANumber => cases hzero
  | infinity s => cases s <;> simp [UnpackedFloat.le, UnpackedFloat.compare] at hzero hone
  | finite s m e hm =>
    cases s with
    | negative => cases hzero
    | positive =>
      have hfits := hu _ _ _ _ rfl
      have hcompare : ((compare e (-52)).then (compare m (2 ^ 52))).isLE = true := hone
      rw [Ordering.isLE_then_iff_or, compare_lt_iff_lt, compare_eq_iff_eq,
        Nat.isLE_compare] at hcompare
      refine .finite hfits ?_
      have := hfits.lt
      unfold rank
      omega

end UpToOne

/-! ## Products -/

section Product

variable {m l m' l' : Nat} {e f e' f' : Int}

/-- Products of doubles up to one have bits enough to be rounded. -/
theorem Fits.mul (h : Fits m e) (hl : 0 < l) (hf : f ≤ 0) : 2 ^ 52 ≤ m * l ∨ e + f ≤ -1074 := by
  rcases h.normal with hnormal | hleast
  · exact .inl (hnormal.trans (Nat.le_mul_of_pos_right m hl))
  · exact .inr (by omega)

theorem le_mul_two_pow_of_rank_le (h : Fits m e) (h' : Fits m' e')
    (hle : rank m e ≤ rank m' e') : e ≤ e' ∧ m ≤ m' * 2 ^ (e' - e).toNat := by
  have hlt := h.lt
  have hlt' := h'.lt
  have hleast := h.le
  have hleast' := h'.le
  unfold rank at hle
  refine ⟨by omega, ?_⟩
  by_cases heq : e = e'
  · subst heq
    rw [Int.sub_self, Int.toNat_zero, Nat.pow_zero, Nat.mul_one]
    omega
  · have hnormal : 2 ^ 52 ≤ m' := h'.normal.resolve_right (by omega)
    have htwo : 2 ^ 1 ≤ 2 ^ (e' - e).toNat := Nat.pow_le_pow_right (by decide) (by omega)
    calc m ≤ 2 ^ 52 * 2 ^ 1 := by omega
      _ ≤ m' * 2 ^ (e' - e).toNat := Nat.mul_le_mul hnormal htwo

/-- A product of heavier doubles is rounded to a heavier one. -/
theorem rank_rounded_mul_mono (hm : Fits m e) (hm' : Fits m' e') (hl : Fits l f)
    (hl' : Fits l' f') (hlpos : 0 < l) (hmpos' : 0 < m') (hlpos' : 0 < l') (hf : f' ≤ 0)
    (hle : rank m e ≤ rank m' e') (hle' : rank l f ≤ rank l' f') :
    rank (rounded (m * l) (e + f)).1 (rounded (m * l) (e + f)).2 ≤
      rank (rounded (m' * l') (e' + f')).1 (rounded (m' * l') (e' + f')).2 := by
  obtain ⟨he, hmle⟩ := le_mul_two_pow_of_rank_le hm hm' hle
  obtain ⟨hf', hlle⟩ := le_mul_two_pow_of_rank_le hl hl' hle'
  have hscale : m * l ≤ m' * l' * 2 ^ ((e' - e).toNat + (f' - f).toNat) := by
    rw [Nat.pow_add, Nat.mul_mul_mul_comm]
    exact Nat.mul_le_mul hmle hlle
  have hexponent : e + f = e' + f' - ((e' - e).toNat + (f' - f).toNat : Nat) := by omega
  have hbits := hm'.mul hlpos' hf
  have hne : m' * l' ≠ 0 := (Nat.mul_pos hmpos' hlpos').ne'
  have hmono := rounded_mono (hm.mul hlpos (hf'.trans hf)) hscale
  rwa [hexponent, rounded_mul_two_pow hbits hne, ← hexponent] at hmono

theorem rounded_mul_one (h : Fits m e) (hpos : 0 < m) :
    rounded (m * 2 ^ 52) (e + -52) = (m, e) :=
  (rounded_mul_two_pow (h.normal.imp_right Int.le_of_eq) hpos.ne' 52).trans (rounded_of_fits h)

/-- A rounded product does not exceed a factor if the other one is at most one. -/
theorem rank_rounded_mul_le (hm : Fits m e) (hl : Fits l f) (hmpos : 0 < m) (hlpos : 0 < l)
    (hle : rank l f ≤ rank (2 ^ 52) (-52)) :
    rank (rounded (m * l) (e + f)).1 (rounded (m * l) (e + f)).2 ≤ rank m e := by
  have hone : Fits (2 ^ 52) (-52) := ⟨by decide, by decide, .inl le_rfl⟩
  have h := rank_rounded_mul_mono hm hm hl hone hlpos hmpos (Nat.two_pow_pos 52) (by decide) le_rfl
    hle
  rwa [rounded_mul_one hm hmpos] at h

end Product

namespace UpToOne

variable {u v u' v' : UnpackedFloat}

theorem height_mul {m l : Nat} {e f : Int} (hm : 0 < m) (hl : 0 < l) (h : Fits m e) (hf : f ≤ 0) :
    height ((UnpackedFloat.finite .positive m e hm).mul .binary64 (.finite .positive l f hl)) =
      rank (rounded (m * l) (e + f)).1 (rounded (m * l) (e + f)).2 := by
  change height (roundWithAccuracy .binary64 .positive (m * l) (e + f) .exact) = _
  have hfits := fits_rounded (h.mul hl hf)
  rw [roundWithAccuracy_eq]
  split
  · rename_i hzero
    have := hfits.normal
    simp only [height, rank]
    omega
  · rfl

/-- A product of doubles up to one is rounded to zero or such a double, and exceeds neither
factor. -/
theorem mul (hu : UpToOne u) (hv : UpToOne v) :
    UpToOne (u.mul .binary64 v) ∧ height (u.mul .binary64 v) ≤ height u ∧
      height (u.mul .binary64 v) ≤ height v := by
  cases hu with
  | zero s => cases hv <;> exact ⟨.zero _, Nat.zero_le _, Nat.zero_le _⟩
  | @finite m e hm h hle =>
    cases hv with
    | zero s' => exact ⟨.zero _, Nat.zero_le _, Nat.zero_le _⟩
    | @finite l f hl h' hle' =>
      have hf : f ≤ 0 := (exponent_le hle').trans (by decide)
      have hleft := rank_rounded_mul_le h h' hm hl hle'
      have hright := rank_rounded_mul_le h' h hl hm hle
      rw [Nat.mul_comm, Int.add_comm] at hright
      refine ⟨?_, (height_mul hm hl h hf).trans_le hleft, (height_mul hm hl h hf).trans_le hright⟩
      change UpToOne (roundWithAccuracy .binary64 .positive (m * l) (e + f) .exact)
      rw [roundWithAccuracy_eq]
      split
      · exact .zero _
      · exact .finite (fits_rounded (h.mul hl hf)) (hleft.trans hle)

theorem height_mul_mono (hu : UpToOne u) (hv : UpToOne v) (hu' : UpToOne u') (hv' : UpToOne v')
    (hle : height u ≤ height u') (hle' : height v ≤ height v') :
    height (u.mul .binary64 v) ≤ height (u'.mul .binary64 v') := by
  cases hu with
  | zero s => cases hv <;> exact Nat.zero_le _
  | @finite m e hm h hone =>
    cases hv with
    | zero s => exact Nat.zero_le _
    | @finite l f hl h' hone' =>
      cases hu' with
      | zero s => exact absurd hle (Nat.not_le.2 (Nat.add_pos_right _ hm))
      | @finite m' e' hm' k honek =>
        cases hv' with
        | zero s => exact absurd hle' (Nat.not_le.2 (Nat.add_pos_right _ hl))
        | @finite l' f' hl' k' honek' =>
          have hf : f ≤ 0 := (exponent_le hone').trans (by decide)
          have hf' : f' ≤ 0 := (exponent_le honek').trans (by decide)
          rw [height_mul hm hl h hf, height_mul hm' hl' k hf']
          exact rank_rounded_mul_mono h k h' k' hl hm' hl' hf' hle hle'

end UpToOne

/-! ## Doubles -/

theorem unpack_zero : (0 : Float).toModel.unpack = .zero .positive := rfl

theorem unpack_one :
    (1 : Float).toModel.unpack = .finite .positive (2 ^ 52) (-52) (Nat.two_pow_pos 52) := rfl

theorem le_iff {x y : Float} : x ≤ y ↔ x.toModel.unpack.le y.toModel.unpack = true := by
  change decide _ = true ↔ _
  rw [decide_eq_true_iff]
  rfl

theorem lt_iff {x y : Float} : x < y ↔ x.toModel.unpack.lt y.toModel.unpack = true := by
  change decide _ = true ↔ _
  rw [decide_eq_true_iff]
  rfl

theorem inUnit_iff_upToOne {x : Float} : InUnit x ↔ UpToOne x.toModel.unpack := by
  rw [InUnit, le_iff, le_iff, unpack_zero, unpack_one]
  constructor
  · rintro ⟨hzero, hone⟩
    exact .of_le (fun _ _ _ _ => fits_of_unpack) hzero hone
  · intro h
    exact ⟨((UpToOne.zero _).le_iff h).2 (Nat.zero_le _), (h.le_iff .one).2 h.height_le_one⟩

section InUnit

variable {x y : Float}

theorem le_iff_height (hx : InUnit x) (hy : InUnit y) :
    x ≤ y ↔ height x.toModel.unpack ≤ height y.toModel.unpack :=
  le_iff.trans ((inUnit_iff_upToOne.1 hx).le_iff (inUnit_iff_upToOne.1 hy))

theorem lt_iff_height (hx : InUnit x) (hy : InUnit y) :
    x < y ↔ height x.toModel.unpack < height y.toModel.unpack :=
  lt_iff.trans ((inUnit_iff_upToOne.1 hx).lt_iff (inUnit_iff_upToOne.1 hy))

theorem unpack_mul (hx : InUnit x) (hy : InUnit y) :
    (x * y).toModel.unpack = x.toModel.unpack.mul .binary64 y.toModel.unpack :=
  ((inUnit_iff_upToOne.1 hx).mul (inUnit_iff_upToOne.1 hy)).1.unpack_pack

theorem inUnit_mul (hx : InUnit x) (hy : InUnit y) : InUnit (x * y) := by
  rw [inUnit_iff_upToOne, unpack_mul hx hy]
  exact ((inUnit_iff_upToOne.1 hx).mul (inUnit_iff_upToOne.1 hy)).1

end InUnit

theorem totalOn_inUnit : TotalOn fun x : Float => InUnit x where
  trans hx hy hz hxy hyz := by
    rw [le_iff_height hx hy] at hxy
    rw [le_iff_height hy hz] at hyz
    exact (le_iff_height hx hz).2 (hxy.trans hyz)
  total hx hy := by
    rw [le_iff_height hx hy, le_iff_height hy hx]
    exact Nat.le_total _ _
  lt_iff hx hy := by
    rw [lt_iff_height hx hy, le_iff_height hy hx, Nat.not_le]

/-- Doubles satisfy all that is asked of products, although the products are rounded. -/
theorem unitProducts_double : UnitProducts Float where
  total := totalOn_inUnit
  inUnit_one := inUnit_iff_upToOne.2 .one
  inUnit_mul := inUnit_mul
  mul_le_mul hx hx' hy hy' hle hle' := by
    rw [le_iff_height hx hx'] at hle
    rw [le_iff_height hy hy'] at hle'
    rw [le_iff_height (inUnit_mul hx hy) (inUnit_mul hx' hy'), unpack_mul hx hy, unpack_mul hx' hy']
    exact UpToOne.height_mul_mono (inUnit_iff_upToOne.1 hx) (inUnit_iff_upToOne.1 hy)
      (inUnit_iff_upToOne.1 hx') (inUnit_iff_upToOne.1 hy') hle hle'
  mul_le_left hx hy := by
    rw [le_iff_height (inUnit_mul hx hy) hx, unpack_mul hx hy]
    exact ((inUnit_iff_upToOne.1 hx).mul (inUnit_iff_upToOne.1 hy)).2.1
  mul_le_right hx hy := by
    rw [le_iff_height (inUnit_mul hx hy) hy, unpack_mul hx hy]
    exact ((inUnit_iff_upToOne.1 hx).mul (inUnit_iff_upToOne.1 hy)).2.2

end TabularParsing.Double
