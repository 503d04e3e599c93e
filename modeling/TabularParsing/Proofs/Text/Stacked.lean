import TabularParsing.Proofs.Text.Numbering

/-!
# Texts below each other

Where one text stands below another, both are read as each is read alone. The lines of the lower one
have greater numbers, and its entries count only if the upper one holds no fault.

## Main definitions

* `FormatError.lowered`: a fault some lines further down.
* `Format.stacked`: what two texts yield together.

## Main statements

* `Format.readLines_append`: the lines of two texts.
* `Format.readers_append`: the three formats.
-/
namespace TabularParsing

/-- The fault as it is reported `k` lines further down. -/
def FormatError.lowered (k : Nat) (e : FormatError) : FormatError := ⟨e.line + k, e.fault⟩

namespace Format

variable {α β : Type}

/-- What two texts yield together if the second begins `k` lines further down: the first fault, or
the entries of both. -/
def stacked (k : Nat) : Except FormatError (List α) → Except FormatError (List α) →
    Except FormatError (List α)
  | .error e, _ => .error e
  | .ok _, .error e => .error (e.lowered k)
  | .ok upper, .ok lower => .ok (upper ++ lower)

theorem map_stacked (f : α → β) (k : Nat) (upper lower : Except FormatError (List α)) :
    (stacked k upper lower).map (List.map f) =
      stacked k (upper.map (List.map f)) (lower.map (List.map f)) := by
  cases upper <;> cases lower <;> simp [stacked, Except.map]

/-- An entry `k` lines further down. -/
def lowerEntry (k : Nat) : Nat × α → Nat × α := Prod.map (· + k) id

variable {read : List Char → Except FormatFault α}

/-- Lines further down are read as before, with greater numbers. -/
theorem mapM_readNumbered_lower (k : Nat) (ls : List (Nat × List Char)) :
    stacked k (.ok []) ((ls.mapM (readNumbered read)).map (List.map (lowerEntry k))) =
      (ls.map (Prod.map (· + k) id)).mapM (readNumbered read) := by
  induction ls with
  | nil => rfl
  | cons l ls ih =>
    obtain ⟨n, line⟩ := l
    rw [List.map_cons, List.mapM_cons, List.mapM_cons, ← ih]
    cases hline : read line with
    | error f => simp [readNumbered, hline, stacked, FormatError.lowered, bind, Except.bind,
        Except.map]
    | ok a =>
      cases ls.mapM (readNumbered read) <;>
        simp [readNumbered, hline, stacked, lowerEntry, bind, Except.bind, Except.map, pure,
          Except.pure]

/-- The lines of two texts. -/
theorem readLines_append (a b : String) :
    readLines read (a ++ "\n" ++ b) = stacked (1 + a.toList.count '\n') (readLines read a)
      ((readLines read b).map (List.map (lowerEntry (1 + a.toList.count '\n')))) := by
  have htext : (a ++ "\n" ++ b).toList = a.toList ++ '\n' :: b.toList := by simp
  rw [readLines_eq, htext, Text.filledLines_append, List.mapM_append, ← mapM_readNumbered_lower,
    readLines_eq, readLines_eq]
  generalize (Text.filledLines b.toList).mapM (readNumbered read) = lower
  cases (Text.filledLines a.toList).mapM (readNumbered read) with
  | error e => rfl
  | ok upper => cases lower <;> rfl

/-- The entries of two texts when the numbers of their lines are left out. -/
theorem map_snd_readLines_append (a b : String) :
    (readLines read (a ++ "\n" ++ b)).map (List.map Prod.snd) =
      stacked (1 + a.toList.count '\n') ((readLines read a).map (List.map Prod.snd))
        ((readLines read b).map (List.map Prod.snd)) := by
  have hsnd (k : Nat) : Prod.snd ∘ lowerEntry (α := α) k = Prod.snd := rfl
  rw [readLines_append, map_stacked]
  cases readLines read b <;> simp [Except.map, hsnd]

/-- A text and another one below it are read in each of the three formats as both are read alone.
The second begins one line further down than the first has line feeds. A fault of the first text is
the fault of the whole; otherwise a fault of the second is, reported that many lines further down;
otherwise the entries of the first come before those of the second, whose line numbers are raised by
as much. -/
theorem readers_append (a b : String) :
    readRules (a ++ "\n" ++ b) =
      stacked (1 + a.toList.count '\n') (readRules a) (readRules b) ∧
    readWeights (a ++ "\n" ++ b) =
      stacked (1 + a.toList.count '\n') (readWeights a) (readWeights b) ∧
    readWeightedRules (a ++ "\n" ++ b) =
      stacked (1 + a.toList.count '\n') (readWeightedRules a)
        ((readWeightedRules b).map
          (List.map fun e => (e.1 + (1 + a.toList.count '\n'), e.2))) :=
  ⟨map_snd_readLines_append a b, map_snd_readLines_append a b, readLines_append a b⟩

end Format

end TabularParsing
