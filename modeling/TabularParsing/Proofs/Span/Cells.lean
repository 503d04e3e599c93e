import Mathlib.Data.List.Basic
import TabularParsing.Proofs.Entries
import TabularParsing.Span.Map

/-!
# Cells of span maps

Whatever keys are set one after the other, a map over spans holds for each valid key what was last
set there, and nothing else. The places of cells are in the order of the keys that they are decoded
to, so the map lists the keys that are set in ascending order.

## Main definitions

* `Constituent.Before`: the order of keys.
* `SpanMap.setAll`: a map in which keys are set one after the other.

## Main statements

* `SpanMap.get?_setAll`: what is found.
* `SpanMap.pairwise_toList`, `SpanMap.length_toList`: what is listed.
-/
namespace TabularParsing

namespace Constituent

/-- By first position, then by last position, then by symbol. -/
def Before (k l : Constituent) : Prop :=
  k.first < l.first ∨
    k.first = l.first ∧ (k.last < l.last ∨ k.last = l.last ∧ k.symbol < l.symbol)

theorem div_lt_or_mod_lt {i j : Nat} (h : i < j) (n : Nat) :
    i / n < j / n ∨ i / n = j / n ∧ i % n < j % n := by
  have hi := Nat.div_add_mod i n
  have hj := Nat.div_add_mod j n
  rcases Nat.lt_or_eq_of_le (Nat.div_le_div_right (Nat.le_of_lt h)) with hlt | heq
  · exact .inl hlt
  · rw [heq] at hi
    exact .inr ⟨heq, by omega⟩

/-- Places are in the order of the keys that they are decoded to. -/
theorem before_ofPlace {i j : Nat} (h : i < j) (len symbols : Nat) :
    (ofPlace len symbols i).Before (ofPlace len symbols j) := by
  unfold Before
  simp only [ofPlace, Nat.add_lt_add_iff_right, Nat.add_right_cancel_iff]
  rcases div_lt_or_mod_lt h symbols with hspan | ⟨hspan, hsymbol⟩
  · rcases div_lt_or_mod_lt hspan len with hfirst | ⟨hfirst, hlast⟩
    · exact .inl hfirst
    · exact .inr ⟨hfirst, .inl hlast⟩
  · exact .inr ⟨by rw [hspan], .inr ⟨by rw [hspan], hsymbol⟩⟩

end Constituent

namespace SpanMap

variable {α : Type}

/-- Sets keys one after the other. -/
def setAll (t : SpanMap α) (sets : List (Constituent × α)) : SpanMap α :=
  sets.foldl (fun t s => t.set s.1 s.2) t

@[simp] theorem len_setAll (t : SpanMap α) (sets : List (Constituent × α)) :
    (t.setAll sets).len = t.len := by
  induction sets generalizing t with
  | nil => rfl
  | cons s sets ih => exact (ih _).trans (len_set t s.1 s.2)

@[simp] theorem symbols_setAll (t : SpanMap α) (sets : List (Constituent × α)) :
    (t.setAll sets).symbols = t.symbols := by
  induction sets generalizing t with
  | nil => rfl
  | cons s sets ih => exact (ih _).trans (symbols_set t s.1 s.2)

/-- One more key that is set changes what is read there, if it is valid, and nothing else. -/
theorem get?_setAll (len symbols : Nat) (sets : List (Constituent × α)) (k : Constituent) :
    ((empty len symbols).setAll sets).get? k =
      if k.Valid len symbols then lastValue? sets k else none := by
  induction sets using List.reverseRecOn with
  | nil => simp [setAll, get?_empty, lastValue?]
  | append_singleton sets s ih =>
    have hstep : (empty len symbols).setAll (sets ++ [s]) =
        ((empty len symbols).setAll sets).set s.1 s.2 := List.foldl_concat _ _ _ _
    rw [hstep, get?_set, ih, lastValue?_concat, len_setAll, symbols_setAll]
    change (if s.1 = k ∧ s.1.Valid len symbols then _ else _) = _
    by_cases hk : s.1 = k
    · subst hk
      by_cases hvalid : s.1.Valid len symbols <;> simp [hvalid]
    · simp [hk]

/-! ## The list of a map -/

theorem pairwise_toList (t : SpanMap α) : t.toList.Pairwise fun p q => p.1.Before q.1 := by
  have hplaces : t.cells.toList.zipIdx.Pairwise fun p q => p.2 < q.2 := by
    rw [← List.pairwise_map (f := Prod.snd), List.zipIdx_map_snd]
    exact List.pairwise_lt_range'
  refine List.pairwise_filterMap.2 (hplaces.imp fun hlt x hx y hy => ?_)
  obtain ⟨a, -, rfl⟩ := Option.map_eq_some_iff.1 hx
  obtain ⟨b, -, rfl⟩ := Option.map_eq_some_iff.1 hy
  exact Constituent.before_ofPlace hlt t.len t.symbols

theorem length_toList (t : SpanMap α) : t.toList.length = t.size := by
  have hcells := congrArg (List.countP Option.isSome) (List.zipIdx_map_fst 0 t.cells.toList)
  rw [List.countP_map] at hcells
  simpa only [toList, size, List.length_filterMap_eq_countP, Option.isSome_map,
    Function.comp_def] using hcells

end SpanMap

end TabularParsing
