import Mathlib.Data.List.Basic

/-!
# Segments of a sentence

`segment ws i k` holds the words from position `i` up to but not including position `k`, counted
from 0. Neighbouring segments append, and every way to cut a segment in two is a position in it.
-/
namespace TabularParsing

variable {α : Type}

/-- The members of a list from position `i` on, up to but not including position `k`. -/
def segment (ws : List α) (i k : Nat) : List α := (ws.take k).drop i

@[simp] theorem segment_self (ws : List α) (i : Nat) : segment ws i i = [] := by
  simp [segment]

@[simp] theorem segment_full (ws : List α) : segment ws 0 ws.length = ws := by
  simp [segment]

theorem length_segment {ws : List α} {i k : Nat} (hk : k ≤ ws.length) :
    (segment ws i k).length = k - i := by
  simp [segment, Nat.min_eq_left hk]

theorem lt_of_segment_ne_nil {ws : List α} {i k : Nat} (h : segment ws i k ≠ []) : i < k := by
  by_contra hik
  exact h (by simp [segment]; omega)

theorem segment_append (ws : List α) {i m k : Nat} (him : i ≤ m) (hmk : m ≤ k) :
    segment ws i m ++ segment ws m k = segment ws i k := by
  have htake : ws.take k = ws.take m ++ segment ws m k := by
    have := List.take_append_drop m (ws.take k)
    rw [List.take_take, Nat.min_eq_left hmk] at this
    exact this.symm
  rcases Nat.le_total m ws.length with hm | hm
  · have hi : i ≤ (ws.take m).length := by simp; omega
    calc segment ws i m ++ segment ws m k
        = (ws.take m ++ segment ws m k).drop i := (List.drop_append_of_le_length hi).symm
      _ = segment ws i k := by rw [← htake, segment]
  · have hnil : segment ws m k = [] := by simp [segment]; omega
    rw [hnil, List.append_nil] at htake ⊢
    rw [segment, segment, htake]

theorem segment_succ {ws : List α} {i : Nat} {w : α} (h : ws[i]? = some w) :
    segment ws i (i + 1) = [w] := by
  obtain ⟨hi, rfl⟩ := List.getElem?_eq_some_iff.1 h
  rw [segment, List.take_succ_eq_append_getElem hi,
    List.drop_append_of_le_length (by simp; omega)]
  simp

/-- A word of a segment stands where it stands in the whole. -/
theorem getElem?_segment {ws : List α} {i k n : Nat} (h : i + n < k) :
    (segment ws i k)[n]? = ws[i + n]? := by
  rw [segment, List.getElem?_drop, List.getElem?_take_of_lt h]

/-- Cutting a segment in two cuts it at a position. -/
theorem exists_cut {ws us vs : List α} {i k : Nat} (hik : i ≤ k) (hk : k ≤ ws.length)
    (h : us ++ vs = segment ws i k) :
    ∃ m, i ≤ m ∧ m ≤ k ∧ us = segment ws i m ∧ vs = segment ws m k := by
  have hlen : us.length + vs.length = k - i := by
    rw [← List.length_append, h, length_segment hk]
  refine ⟨i + us.length, by omega, by omega, ?_⟩
  rw [← segment_append ws (m := i + us.length) (by omega) (by omega)] at h
  exact List.append_inj h (by rw [length_segment (by omega)]; omega)

theorem getElem?_of_segment_eq {ws : List α} {i k : Nat} {w : α} (hk : k ≤ ws.length)
    (h : segment ws i k = [w]) : k = i + 1 ∧ ws[i]? = some w := by
  have hlen : 1 = k - i := by rw [← length_segment hk, h]; rfl
  refine ⟨by omega, ?_⟩
  have hw : (segment ws i k)[0]? = some w := by rw [h]; rfl
  rwa [getElem?_segment (by omega)] at hw

end TabularParsing
