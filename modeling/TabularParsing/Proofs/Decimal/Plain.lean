import TabularParsing.Proofs.Decimal.Digits
import TabularParsing.Proofs.Text.Lines
import TabularParsing.Proofs.Text.Words

/-!
# Weights as they are printed

The weights of grammar texts are printed with digits, a sign and a point, or as `inf` or `NaN`. So
each is one word, and holds no comment.

## Main definition

* `Decimal.IsPlain`: the characters of a weight.

## Main statements

* `Decimal.isWord_plain`, `Decimal.not_mentions_plain`
-/
namespace TabularParsing.Decimal

/-- A digit, or another character of a number that is printed. -/
def IsPlain (c : Char) : Prop := isDigit c = true ∨ c ∈ ['-', '.', 'i', 'n', 'f', 'N', 'a']

variable {c : Char}

theorem IsPlain.isBlank_eq_false (h : IsPlain c) : Text.isBlank c = false := by
  rcases h with h | h
  · have hrange : 48 ≤ c.toNat ∧ c.toNat ≤ 57 := by
      simpa [isDigit, Char.le_def, UInt32.le_iff_toNat_le] using h
    simp only [Text.isBlank, Text.inRanges, Text.blankRanges, List.any_cons, List.any_nil]
    grind
  · have hall : ['-', '.', 'i', 'n', 'f', 'N', 'a'].all (fun c => !Text.isBlank c) = true := by
      decide
    simpa using List.all_eq_true.1 hall c h

theorem IsPlain.ne_slash (h : IsPlain c) : c ≠ '/' := by
  rintro rfl
  have hdigit : isDigit '/' = false := by decide
  simp [IsPlain, hdigit] at h

/-- Nothing but characters of a weight. -/
def AllPlain (cs : List Char) : Prop := ∀ c ∈ cs, IsPlain c

theorem AllDigits.allPlain {cs : List Char} (h : AllDigits cs) : AllPlain cs := fun c hc =>
  .inl (h c hc)

theorem AllPlain.append {cs ds : List Char} (hc : AllPlain cs) (hd : AllPlain ds) :
    AllPlain (cs ++ ds) := List.forall_mem_append.2 ⟨hc, hd⟩

theorem AllPlain.cons {cs : List Char} (hc : IsPlain c) (hcs : AllPlain cs) :
    AllPlain (c :: cs) := List.forall_mem_cons.2 ⟨hc, hcs⟩

theorem isPlain_point : IsPlain '.' := .inr (by decide)

theorem allPlain_layPositional (d : Scaled) : AllPlain (plainStyle.layPositional d) := by
  have hdigits := allDigits_digitChars d.digits
  simp only [Style.layPositional]
  split
  · exact (hdigits.append (allDigits_zeros _)).allPlain.append (by simp [plainStyle, AllPlain])
  · split
    · exact (hdigits.take _).allPlain.append ((hdigits.drop _).allPlain.cons isPlain_point)
    · exact (((allDigits_zeros _).append hdigits).allPlain.cons isPlain_point).cons (.inl rfl)

theorem allPlain_lay (d : Scaled) : AllPlain (plainStyle.lay d) := by
  rw [Style.lay]
  split
  · exact AllPlain.cons (.inl rfl) (by simp [plainStyle, AllPlain])
  · exact allPlain_layPositional d

theorem lay_ne_nil (d : Scaled) : plainStyle.lay d ≠ [] := by
  rw [Style.lay]
  split
  · simp
  · have hdigits := digitChars_ne_nil d.digits
    simp only [plainStyle, if_true, Style.layPositional]
    split
    · simp [hdigits]
    · split
      · simp
      · simp

/-- A weight is not printed as nothing, and only with the characters of weights. -/
theorem plain_chars (x : Float) : (plain x).toList ≠ [] ∧ AllPlain (plain x).toList := by
  rw [plain, Style.render]
  split
  · exact ⟨by simp, by simp [AllPlain, IsPlain]⟩
  · simp only [String.toList_ofList]
    have hbody (d : Scaled) : (if x.isInf then ['i', 'n', 'f'] else plainStyle.lay d) ≠ [] ∧
        AllPlain (if x.isInf then ['i', 'n', 'f'] else plainStyle.lay d) := by
      split
      · exact ⟨by simp, by simp [AllPlain, IsPlain]⟩
      · exact ⟨lay_ne_nil d, allPlain_lay d⟩
    split
    · exact ⟨by simp, (hbody _).2.cons (.inr (by decide))⟩
    · exact hbody _

theorem isWord_plain (x : Float) : Text.IsWord (plain x) :=
  ⟨(plain_chars x).1, fun c hc => ((plain_chars x).2 c hc).isBlank_eq_false⟩

theorem not_mentions_plain (x : Float) : ¬ Text.Mentions '/' '/' (plain x).toList :=
  Text.not_mentions_of_notMem fun h => ((plain_chars x).2 _ h).ne_slash rfl

end TabularParsing.Decimal
