import Mathlib.Data.List.Induction
import Std.Data.TreeMap

/-!
# Maps entry by entry

A map lists each of its keys once. What is done entry by entry is done for a key at its own entry,
and nothing before and after it matters.

## Main statements

* `exists_split_of_getElem?`: the entry of a key and what stands before and after it.
* `getElem?_foldl_insert`: entries that are put into another map.
* `getElem?_foldl_insert_empty`: of two entries with one key the later counts.
-/
namespace TabularParsing

variable {α β : Type} {m : Std.TreeMap String α} {s : String}

theorem fst_ne_of_getElem?_eq_none (h : m[s]? = none) : ∀ e ∈ m.toList, e.1 ≠ s := by
  rintro ⟨t, a⟩ he rfl
  rw [Std.TreeMap.mem_toList_iff_getElem?_eq_some.1 he] at h
  cases h

/-- A key stands at one entry only. -/
theorem exists_split_of_getElem? {a : α} (h : m[s]? = some a) :
    ∃ before after, m.toList = before ++ (s, a) :: after ∧ (∀ e ∈ before, e.1 ≠ s) ∧
      ∀ e ∈ after, e.1 ≠ s := by
  obtain ⟨before, after, hsplit⟩ :=
    List.append_of_mem (Std.TreeMap.mem_toList_iff_getElem?_eq_some.2 h)
  have hdistinct := Std.TreeMap.distinct_keys_toList (t := m)
  rw [hsplit, List.pairwise_append, List.pairwise_cons] at hdistinct
  obtain ⟨-, ⟨hafter, -⟩, hbefore⟩ := hdistinct
  refine ⟨before, after, hsplit, fun e he hes => ?_, fun e he hes => ?_⟩
  · exact hbefore e he _ List.mem_cons_self (Std.LawfulEqCmp.compare_eq_iff_eq.2 hes)
  · exact hafter e he (Std.LawfulEqCmp.compare_eq_iff_eq.2 hes.symm)

theorem getElem?_foldl_insert_of_ne {f : String × α → β} {es : List (String × α)}
    (h : ∀ e ∈ es, e.1 ≠ s) (d : Std.TreeMap String β) :
    (es.foldl (fun d e => d.insert e.1 (f e)) d)[s]? = d[s]? := by
  induction es generalizing d with
  | nil => rfl
  | cons e es ih =>
    have hne := h e List.mem_cons_self
    rw [List.foldl_cons, ih (fun e' he' => h e' (List.mem_cons_of_mem _ he')),
      Std.TreeMap.getElem?_insert, if_neg (by simpa using hne)]

/-- Each key of the first map has its entry, any other key what it had before. -/
theorem getElem?_foldl_insert (m : Std.TreeMap String α) (f : String × α → β)
    (d : Std.TreeMap String β) (s : String) :
    (m.toList.foldl (fun d e => d.insert e.1 (f e)) d)[s]? =
      (m[s]?.map fun a => f (s, a)).or d[s]? := by
  cases h : m[s]? with
  | none => exact getElem?_foldl_insert_of_ne (fst_ne_of_getElem?_eq_none h) d
  | some a =>
    obtain ⟨before, after, hsplit, -, hafter⟩ := exists_split_of_getElem? h
    rw [hsplit, List.foldl_append, List.foldl_cons, getElem?_foldl_insert_of_ne hafter]
    simp

/-! ## The last entry of a key -/

section LastValue

variable {κ : Type} [DecidableEq κ]

/-- The value of the last entry with a key. -/
def lastValue? (es : List (κ × α)) (k : κ) : Option α :=
  (es.filter fun e => e.1 = k).getLast?.map Prod.snd

theorem lastValue?_concat (es : List (κ × α)) (e : κ × α) (k : κ) :
    lastValue? (es ++ [e]) k = if e.1 = k then some e.2 else lastValue? es k := by
  by_cases hk : e.1 = k <;> simp [lastValue?, hk]

/-- A key has a last value if it has an entry at all. -/
theorem isSome_lastValue?_iff (es : List (κ × α)) (k : κ) :
    (lastValue? es k).isSome = true ↔ k ∈ es.map Prod.fst := by
  induction es using List.reverseRecOn with
  | nil => simp [lastValue?]
  | append_singleton es e ih =>
    rw [lastValue?_concat, List.map_append, List.mem_append, ← ih]
    by_cases hk : e.1 = k
    · simp [hk]
    · simp [hk, Ne.symm hk]

/-- Keys may be named otherwise. -/
theorem lastValue?_map_key {κ' : Type} [DecidableEq κ'] {f : κ → κ'} (hf : f.Injective)
    (es : List (κ × α)) (k : κ) :
    lastValue? (es.map fun e => (f e.1, e.2)) (f k) = lastValue? es k := by
  simp [lastValue?, List.filter_map, Function.comp_def, hf.eq_iff]

/-- Values may be changed before or after the last of them is taken. -/
theorem lastValue?_map (f : α → β) (es : List (κ × α)) (k : κ) :
    lastValue? (es.map fun e => (e.1, f e.2)) k = (lastValue? es k).map f := by
  simp [lastValue?, List.filter_map, Function.comp_def]

end LastValue

/-- Of two entries with one key the later counts. -/
theorem getElem?_foldl_insert_empty (es : List (String × α)) (s : String) :
    (es.foldl (fun m e => m.insert e.1 e.2) (∅ : Std.TreeMap String α))[s]? = lastValue? es s := by
  induction es using List.reverseRecOn with
  | nil => simp [lastValue?]
  | append_singleton es e ih =>
    rw [List.foldl_append, List.foldl_cons, List.foldl_nil, Std.TreeMap.getElem?_insert, ih,
      lastValue?_concat]
    simp

end TabularParsing
