/-!
# Blank characters and the words between them

The 25 characters of the Unicode property `White_Space`, the words of a text, and trimming.
-/
namespace TabularParsing.Text

/-- Whether a code point lies in one of the closed ranges. -/
def inRanges (ranges : List (Nat × Nat)) (n : Nat) : Bool :=
  ranges.any fun r => r.1 ≤ n && n ≤ r.2

def blankRanges : List (Nat × Nat) :=
  [(0x09, 0x0D), (0x20, 0x20), (0x85, 0x85), (0xA0, 0xA0), (0x1680, 0x1680), (0x2000, 0x200A),
   (0x2028, 0x2029), (0x202F, 0x202F), (0x205F, 0x205F), (0x3000, 0x3000)]

def isBlank (c : Char) : Bool := inRanges blankRanges c.toNat

theorem isBlank_of_isWhitespace {c : Char} (h : c.isWhitespace = true) : isBlank c = true := by
  simp [Char.isWhitespace] at h
  rcases h with ((h | h) | h) | h <;> subst h <;> decide

/-- Whether a text begins with a character that is no blank. -/
def beginsWord : List Char → Bool
  | [] => false
  | c :: _ => !isBlank c

/-- The maximal runs of characters that are not blank, in order. -/
def wordsOf : List Char → List (List Char)
  | [] => []
  | c :: cs =>
    if isBlank c then wordsOf cs
    else if beginsWord cs then (wordsOf cs).modifyHead (c :: ·)
    else [c] :: wordsOf cs

@[simp] theorem wordsOf_nil : wordsOf [] = [] := rfl

theorem wordsOf_blank {c : Char} (cs : List Char) (h : isBlank c = true) :
    wordsOf (c :: cs) = wordsOf cs := by
  simp [wordsOf, h]

/-- A word that no blank interrupts is read as one, up to the next blank or the end. -/
theorem wordsOf_append {w cs : List Char} (hne : w ≠ []) (hw : ∀ c ∈ w, isBlank c = false)
    (hcs : beginsWord cs = false) : wordsOf (w ++ cs) = w :: wordsOf cs := by
  induction w with
  | nil => exact absurd rfl hne
  | cons c w ih =>
    have hc := hw c (by simp)
    cases w with
    | nil => simp [wordsOf, hc, hcs]
    | cons d w =>
      have hd := hw d (by simp)
      have ih := ih (by simp) fun e he => hw e (List.mem_cons_of_mem _ he)
      rw [List.cons_append, wordsOf, ih]
      simp [hc, hd, beginsWord]

theorem mem_wordsOf {w cs : List Char} (h : w ∈ wordsOf cs) :
    w ≠ [] ∧ ∀ c ∈ w, isBlank c = false := by
  induction cs generalizing w with
  | nil => simp at h
  | cons c cs ih =>
    rw [wordsOf] at h
    split at h
    · exact ih h
    · rename_i hc
      have hc : isBlank c = false := by simpa using hc
      split at h
      · cases hws : wordsOf cs with
        | nil => simp [hws] at h
        | cons v vs =>
          rw [hws, List.modifyHead_cons, List.mem_cons] at h
          rcases h with rfl | h
          · exact ⟨by simp, by simpa [hc] using (@ih v (by simp [hws])).2⟩
          · exact ih (by simp [hws, h])
      · rcases List.mem_cons.1 h with rfl | h
        · exact ⟨by simp, by simpa using hc⟩
        · exact ih h

/-- The text without the blanks at its two ends. -/
def trimmed (cs : List Char) : List Char :=
  ((cs.dropWhile isBlank).reverse.dropWhile isBlank).reverse

@[simp] theorem trimmed_nil : trimmed [] = [] := rfl

/-- The words of a sentence, split at runs of blanks. -/
def words (s : String) : List String := (wordsOf s.toList).map String.ofList

def trim (s : String) : String := String.ofList (trimmed s.toList)

end TabularParsing.Text
