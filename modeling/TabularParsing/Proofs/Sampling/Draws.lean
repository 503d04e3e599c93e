import TabularParsing.Proofs.Sampling.Picks

/-!
# Draws of doubles

A draw scales a fraction of the bound and is refused unless it lies below the bound. It is not below
zero either: no quotient or product of values without a minus sign has one.

## Main definition

* `Double.Unsigned`: values without a minus sign.

## Main statement

* `WordSource.below_drawFloat`
-/
namespace TabularParsing

namespace Double

open Float.Model Float.Model.UnpackedFloat

/-- A minus sign stands before a zero at most. -/
inductive Unsigned : UnpackedFloat → Prop where
  | notANumber : Unsigned .notANumber
  | zero (s : Sign) : Unsigned (.zero s)
  | finite {m : Nat} {e : Int} {hm : 0 < m} : Unsigned (.finite .positive m e hm)
  | infinity : Unsigned (.infinity .positive)

namespace Unsigned

variable {u v : UnpackedFloat}

theorem of_unpackSign {b : BitVec 64}
    (h : Sign.ofBitVec (@unpackSign .binary64 b) = .positive) : Unsigned (unpack .binary64 b) := by
  simp only [UnpackedFloat.unpack, h]
  split_ifs
  · exact .infinity
  · exact .notANumber
  · exact .zero _
  · exact .finite
  · exact .finite

theorem unpack_pack (h : Unsigned u) : Unsigned (unpack .binary64 (pack .binary64 u)) := by
  cases h with
  | notANumber => exact .notANumber
  | zero s =>
    rw [unpack_pack_zero]
    exact .zero s
  | infinity =>
    rw [unpack_pack_infinity]
    exact .infinity
  | finite =>
    apply of_unpackSign
    simp only [UnpackedFloat.pack]
    split_ifs
    · rfl
    · exact unpackSign_packComponents ..
    · exact unpackSign_packComponents ..

theorem roundWithAccuracy (m : Nat) (e : Int) (a : Accuracy) :
    Unsigned (roundWithAccuracy .binary64 .positive m e a) := by
  simp only [UnpackedFloat.roundWithAccuracy]
  split
  · exact .zero _
  · exact .finite

theorem ofUInt64 (n : UInt64) : Unsigned (ofUInt64 .binary64 n) := by
  rw [UnpackedFloat.ofUInt64, UnpackedFloat.ofNat, UnpackedFloat.ofInt,
    UnpackedFloat.normalize]
  split
  · rename_i h
    rw [compare_lt_iff_lt] at h
    omega
  · exact .zero _
  · exact roundWithAccuracy ..

theorem mul (hu : Unsigned u) (hv : Unsigned v) : Unsigned (u.mul .binary64 v) := by
  cases hu with
  | notANumber => exact .notANumber
  | zero s => cases hv <;> first | exact .notANumber | exact .zero _
  | infinity => cases hv <;> first | exact .notANumber | exact .infinity
  | finite =>
    cases hv with
    | notANumber => exact .notANumber
    | zero s => exact .zero _
    | infinity => exact .infinity
    | finite => exact roundWithAccuracy ..

theorem div_finite (hu : Unsigned u) {m : Nat} {e : Int} {hm : 0 < m} :
    Unsigned (u.div .binary64 (.finite .positive m e hm)) := by
  cases hu with
  | notANumber => exact .notANumber
  | zero s => exact .zero _
  | infinity => exact .infinity
  | finite => exact roundWithAccuracy ..

end Unsigned

theorem unsigned_of_pos {x : Float} (h : 0 < x) : Unsigned x.toModel.unpack := by
  have hzero : IsNumber 0 := .zero .positive
  obtain ⟨-, hx⟩ := isNumber_of_lt h
  have hpos : 0 < units x.toModel.unpack := (lt_iff_level hzero hx).1 h
  unfold IsNumber at hx
  generalize x.toModel.unpack = u at hx hpos
  cases hx with
  | zero s => exact .zero s
  | infinity s =>
    cases s with
    | positive => exact .infinity
    | negative =>
      have hneg : 0 < -(limit : Int) := hpos
      omega
  | @finite s m e hm _ _ =>
    cases s with
    | positive => exact .finite
    | negative =>
      have hneg : 0 < -(size m e : Int) := hpos
      omega

theorem nonneg_of_unsigned {x y : Float} (hx : Unsigned x.toModel.unpack) (h : x < y) : 0 ≤ x := by
  refine nonneg_iff.2 ⟨(isNumber_of_lt h).1, ?_⟩
  unfold level
  generalize x.toModel.unpack = u at hx
  cases hx with
  | notANumber => exact le_rfl
  | zero s => exact le_rfl
  | finite => exact Int.natCast_nonneg _
  | infinity => exact Int.natCast_nonneg _

theorem unsigned_unitFraction (w : UInt64) : Unsigned (unitFraction w).toModel.unpack := by
  have hwhole : (4503599627370496.0 : Float).toModel.unpack =
      .finite .positive (2 ^ 52) 0 (by decide) := rfl
  have hquotient : Unsigned ((unpack .binary64 (pack .binary64
      (UnpackedFloat.ofUInt64 .binary64 (w >>> 12)))).div .binary64
      (4503599627370496.0 : Float).toModel.unpack) := by
    rw [hwhole]
    exact (Unsigned.ofUInt64 _).unpack_pack.div_finite
  exact hquotient.unpack_pack

end Double

theorem below_drawScaled {bound : Float} (hbound : 0 < bound) (n : Nat) (g : WordSource) :
    0 ≤ (drawScaled bound n g).1 ∧ (drawScaled bound n g).1 < bound := by
  induction n generalizing g with
  | zero =>
    have hzero : (0 : Float) ≤ 0.0 := by decide
    exact ⟨hzero, hbound⟩
  | succ n ih =>
    rw [drawScaled]
    simp only
    split
    · rename_i hlt
      have hscaled := (Double.unsigned_unitFraction g.next.1).mul (Double.unsigned_of_pos hbound)
      exact ⟨Double.nonneg_of_unsigned hscaled.unpack_pack hlt, hlt⟩
    · exact ih _

/-- Doubles are drawn below their bound. -/
theorem WordSource.below_drawFloat : Drawing.Below WordSource.drawFloat := by
  intro bound g u g' h
  unfold drawFloat at h
  split at h
  · rename_i hbound
    have hbelow := below_drawScaled hbound.1 1000 g
    rwa [Option.some.inj h] at hbelow
  · cases h

end TabularParsing
