import TabularParsing.Decimal.Numeral
import TabularParsing.Proofs.Text.Lines
import TabularParsing.Proofs.Text.Words

/-!
# Texts that read as numbers

A numeral is spelled with digits, signs, a point and a few letters. So it is one word, and holds no
comment.

## Main definition

* `Decimal.IsNumeral`: the characters of a numeral.

## Main statements

* `Decimal.isWord_of_read?`, `Decimal.not_mentions_of_read?`
-/
namespace TabularParsing.Decimal

/-- A digit, a sign, the point, or a letter of an exponent, of `infinity` or of `nan`. -/
def IsNumeral (c : Char) : Prop :=
  isDigit c = true ∨ c ∈ ['+', '-', '.'] ∨ c.toLower ∈ ['e', 'i', 'n', 'f', 't', 'y', 'a']

variable {c : Char} {cs ds : List Char}

theorem isBlank_eq_false_of_range (h : 33 ≤ c.toNat) (h' : c.toNat ≤ 126) :
    Text.isBlank c = false := by
  simp only [Text.isBlank, Text.inRanges, Text.blankRanges, List.any_cons, List.any_nil]
  grind

theorem IsNumeral.isBlank_eq_false (h : IsNumeral c) : Text.isBlank c = false := by
  rcases h with h | h | h
  · have hrange : 48 ≤ c.toNat ∧ c.toNat ≤ 57 := by
      simpa [isDigit, Char.le_def, UInt32.le_iff_toNat_le] using h
    exact isBlank_eq_false_of_range (by omega) (by omega)
  · have hall : ['+', '-', '.'].all (fun c => !Text.isBlank c) = true := by decide
    simpa using List.all_eq_true.1 hall c h
  · by_cases hupper : c.isUpper = true
    · have hrange : 65 ≤ c.toNat ∧ c.toNat ≤ 90 := by
        simpa [Char.isUpper, UInt32.le_iff_toNat_le, ← Char.toNat_val] using hupper
      exact isBlank_eq_false_of_range (by omega) (by omega)
    · have hlower : c.toLower = c := by simp_all [Char.toLower, Char.isUpper]
      have hall : ['e', 'i', 'n', 'f', 't', 'y', 'a'].all (fun c => !Text.isBlank c) = true := by
        decide
      simpa using List.all_eq_true.1 hall c (hlower ▸ h)

theorem not_isNumeral_slash : ¬ IsNumeral '/' := by
  simp only [IsNumeral]
  decide

/-- Nothing but characters of a numeral. -/
def AllNumeral (cs : List Char) : Prop := ∀ c ∈ cs, IsNumeral c

theorem AllNumeral.cons (hc : IsNumeral c) (hcs : AllNumeral cs) : AllNumeral (c :: cs) :=
  List.forall_mem_cons.2 ⟨hc, hcs⟩

theorem AllNumeral.append (hcs : AllNumeral cs) (hds : AllNumeral ds) : AllNumeral (cs ++ ds) :=
  List.forall_mem_append.2 ⟨hcs, hds⟩

theorem allNumeral_of_digits (h : ∀ c ∈ cs, isDigit c = true) : AllNumeral cs := fun c hc =>
  .inl (h c hc)

/-! ## The parts of a numeral -/

theorem allNumeral_of_splitSign (h : AllNumeral (splitSign cs).2) : AllNumeral cs := by
  unfold splitSign at h
  split at h
  · exact h.cons (.inr (.inl (by simp)))
  · exact h.cons (.inr (.inl (by simp)))
  · exact h

/-- The digits, the point and the rest make the whole. -/
theorem allNumeral_of_splitDigits (h : AllNumeral (splitDigits cs).2.2) : AllNumeral cs := by
  have hdigits (ds : List Char) : AllNumeral (ds.takeWhile isDigit) :=
    allNumeral_of_digits fun c hc => List.mem_takeWhile_imp hc
  have hcs : AllNumeral (cs.takeWhile isDigit ++ cs.dropWhile isDigit) := by
    refine (hdigits cs).append ?_
    unfold splitDigits at h
    simp only at h
    split at h
    · rename_i rest hrest
      have hall : AllNumeral (rest.takeWhile isDigit ++ rest.dropWhile isDigit) :=
        (hdigits rest).append h
      rw [List.takeWhile_append_dropWhile] at hall
      rw [hrest]
      exact hall.cons (.inr (.inl (by simp)))
    · exact h
  rwa [List.takeWhile_append_dropWhile] at hcs

theorem allNumeral_of_readPower {p : Int} (h : readPower cs = some p) : AllNumeral cs := by
  cases cs with
  | nil => simp [AllNumeral]
  | cons c cs =>
    rw [readPower] at h
    split at h
    · rename_i hc
      have hletter : IsNumeral c := by
        rcases hc with rfl | rfl
        · exact .inr (.inr (by decide))
        · exact .inr (.inr (by decide))
      refine AllNumeral.cons hletter (allNumeral_of_splitSign (allNumeral_of_digits ?_))
      simp only at h
      split at h
      · cases h
      · simp_all
    · cases h

theorem allNumeral_of_ofWord {negative : Bool} {n : Numeral}
    (h : Numeral.ofWord negative cs = some n) : cs ≠ [] ∧ AllNumeral cs := by
  have hword (word : String) (hne : word.toList ≠ [])
      (hletters : ∀ c ∈ word.toList, c ∈ ['e', 'i', 'n', 'f', 't', 'y', 'a'])
      (heq : cs.map Char.toLower = word.toList) : cs ≠ [] ∧ AllNumeral cs := by
    refine ⟨fun hnil => ?_, fun c hc => ?_⟩
    · subst hnil
      exact hne heq.symm
    · exact .inr (.inr (hletters _ (heq ▸ List.mem_map_of_mem hc)))
  unfold Numeral.ofWord at h
  simp only at h
  split at h
  · rename_i hinf
    rcases hinf with heq | heq
    · exact hword _ (by simp) (by simp) heq
    · exact hword _ (by simp) (by simp) heq
  · split at h
    · rename_i heq
      exact hword _ (by simp) (by simp) heq
    · cases h

theorem allNumeral_of_read {n : Numeral} (h : Numeral.read cs = some n) :
    cs ≠ [] ∧ AllNumeral cs := by
  have hne (hbody : (splitSign cs).2 ≠ []) : cs ≠ [] := by
    rintro rfl
    exact hbody rfl
  unfold Numeral.read at h
  simp only at h
  split at h
  · obtain ⟨hbody, hall⟩ := allNumeral_of_ofWord h
    exact ⟨hne hbody, allNumeral_of_splitSign hall⟩
  · rename_i hdigits
    obtain ⟨p, hp, -⟩ := Option.map_eq_some_iff.1 h
    refine ⟨hne fun hnil => ?_, allNumeral_of_splitSign (allNumeral_of_splitDigits
      (allNumeral_of_readPower hp))⟩
    rw [hnil] at hdigits
    exact hdigits rfl

/-! ## Numerals as tokens -/

variable {token : String} {p : Float}

theorem isWord_of_read? (h : read? token = some p) : Text.IsWord token := by
  obtain ⟨n, hn, -⟩ := Option.map_eq_some_iff.1 h
  obtain ⟨hne, hall⟩ := allNumeral_of_read hn
  exact ⟨hne, fun c hc => (hall c hc).isBlank_eq_false⟩

theorem not_mentions_of_read? (h : read? token = some p) :
    ¬ Text.Mentions '/' '/' token.toList := by
  obtain ⟨n, hn, -⟩ := Option.map_eq_some_iff.1 h
  exact Text.not_mentions_of_notMem fun hslash =>
    not_isNumeral_slash ((allNumeral_of_read hn).2 _ hslash)

end TabularParsing.Decimal
