import TabularParsing.Format.Line
import TabularParsing.Proofs.Text.Lines

/-!
# Lines and their numbers

A text is cut at its line feeds into lines. What a line holds does not depend on blanks at its ends,
so a return before the line feed is no matter. The lines of two texts, one below the other, are
those of the first and those of the second, whose numbers go on from the first.

## Main definitions

* `Text.content`: what a line holds.
* `Text.filledFrom`: the lines that hold something, with their numbers.
* `Format.readNumbered`: a line as it is read with its number.

## Main statements

* `Text.line_induction`: a text line by line.
* `Text.filledFrom_of_feed`, `Text.filledFrom_of_last`: the lines of a text one by one.
* `Text.filledLines_append`: the lines of two texts.
-/
namespace TabularParsing

namespace Text

variable {c : Char} {cs gap line l : List Char} {ls : List (List Char)}

/-! ## What a line holds -/

/-- What a line holds besides its comment and the blanks at its ends. -/
def content (line : List Char) : List Char := trimmed (beforeComment line)

@[simp] theorem content_nil : content [] = [] := rfl

theorem trimmed_append_blanks (h : ∀ c ∈ gap, isBlank c = true) (cs : List Char) :
    trimmed (cs ++ gap) = trimmed cs := by
  have hgap : ∀ c ∈ gap.reverse, isBlank c = true := fun c hc => h c (List.mem_reverse.1 hc)
  have hnil : gap.dropWhile isBlank = [] := by
    have hdrop := @List.dropWhile_append_of_pos _ isBlank gap [] h
    rwa [List.append_nil] at hdrop
  rw [trimmed, trimmed, List.dropWhile_append]
  split
  · rename_i hcs
    rw [hnil, List.isEmpty_iff.1 hcs]
  · rw [List.reverse_append, List.dropWhile_append_of_pos hgap]

theorem trimmed_blanks_append (h : ∀ c ∈ gap, isBlank c = true) (cs : List Char) :
    trimmed (gap ++ cs) = trimmed cs := by
  rw [trimmed, trimmed, List.dropWhile_append_of_pos h]

/-- What follows a text without slashes in it is cut off or left. -/
theorem beforeComment_append (h : '/' ∉ gap) (cs : List Char) :
    beforeComment (cs ++ gap) = beforeComment cs ∨
      beforeComment (cs ++ gap) = beforeComment cs ++ gap := by
  fun_induction beforeComment cs with
  | case1 => exact .inr (beforeComment_eq (not_mentions_of_notMem h))
  | case2 cs => exact .inl rfl
  | case3 c cs hne ih =>
    have hstep : beforeComment (c :: (cs ++ gap)) = c :: beforeComment (cs ++ gap) := by
      rw [beforeComment]
      rintro rest rfl hrest
      cases cs with
      | nil => exact h (by simp_all)
      | cons d cs => exact hne cs rfl (by rw [(List.cons.inj hrest).1])
    rw [List.cons_append, hstep]
    exact ih.imp (congrArg _) (congrArg _)

theorem slash_notMem_of_blank (h : ∀ c ∈ gap, isBlank c = true) : '/' ∉ gap := fun hmem => by
  have hblank := h _ hmem
  revert hblank
  decide

/-- Blanks at the end of a line are no matter. -/
theorem content_append_blanks (h : ∀ c ∈ gap, isBlank c = true) (line : List Char) :
    content (line ++ gap) = content line := by
  rcases beforeComment_append (slash_notMem_of_blank h) line with heq | heq
  · rw [content, content, heq]
  · rw [content, content, heq, trimmed_append_blanks h]

/-- A return at the end of a line is no matter. -/
theorem content_append_return (line : List Char) : content (line ++ ['\r']) = content line :=
  content_append_blanks (List.forall_mem_singleton.2 (by decide)) line

/-! ## One line after the other -/

/-- What holds for a text without line feeds, and for a line above a text for which it holds, holds
for every text. -/
theorem line_induction {P : List Char → Prop} (last : ∀ line, '\n' ∉ line → P line)
    (feed : ∀ line rest, '\n' ∉ line → P rest → P (line ++ '\n' :: rest)) (cs : List Char) :
    P cs := by
  suffices h : ∀ line, '\n' ∉ line → P (line ++ cs) from h [] List.not_mem_nil
  induction cs with
  | nil => simpa using last
  | cons c cs ih =>
    intro line hline
    by_cases hc : c = '\n'
    · subst hc
      exact feed line cs hline (ih [] List.not_mem_nil)
    · simpa using ih (line ++ [c]) (by simp [hline, Ne.symm hc])

theorem linesOf_cons (hc : c ≠ '\n') (hreturn : c = '\r' → cs.head? ≠ some '\n')
    (h : linesOf cs = l :: ls) : linesOf (c :: cs) = (c :: l) :: ls := by
  rw [linesOf, h]
  · exact fun h => hc h
  · rintro rest rfl rfl
    exact hreturn rfl rfl

/-- A return before the line feed belongs to the line end. -/
theorem linesOf_append_return (h : '\n' ∉ line) (cs : List Char) :
    linesOf (line ++ '\r' :: '\n' :: cs) = line :: linesOf cs := by
  induction line with
  | nil => rfl
  | cons c line ih =>
    obtain ⟨hc, hline⟩ := not_or.1 (mt List.mem_cons.2 h)
    refine linesOf_cons (Ne.symm hc) (fun _ => ?_) (ih hline)
    cases line with
    | nil => simp
    | cons d line =>
      intro hd
      exact hline (by simp [Option.some.inj hd])

theorem linesOf_of_notMem (h : '\n' ∉ line) (hne : line ≠ []) : linesOf line = [line] := by
  induction line with
  | nil => exact absurd rfl hne
  | cons c line ih =>
    obtain ⟨hc, hline⟩ := not_or.1 (mt List.mem_cons.2 h)
    cases line with
    | nil => simp [linesOf, Ne.symm hc]
    | cons d line =>
      refine linesOf_cons (Ne.symm hc) (fun _ hd => ?_) (ih hline (by simp))
      exact hline (by simp [Option.some.inj hd])

/-- The first line of a text, with or without a return at its end, and those below it. -/
theorem exists_linesOf_eq (h : '\n' ∉ line) (cs : List Char) :
    ∃ l, linesOf (line ++ '\n' :: cs) = l :: linesOf cs ∧ content l = content line := by
  by_cases hend : line.getLast? = some '\r'
  · obtain ⟨l, rfl⟩ := List.getLast?_eq_some_iff.1 hend
    have hl : '\n' ∉ l := fun hmem => h (List.mem_append_left _ hmem)
    refine ⟨l, ?_, (content_append_return l).symm⟩
    simpa using linesOf_append_return hl cs
  · exact ⟨line, linesOf_append h hend cs, rfl⟩

/-! ## The lines that hold something -/

/-- The lines that hold something, numbered from `n`. -/
def filledFrom (n : Nat) (text : List Char) : List (Nat × List Char) :=
  (((linesOf text).zipIdx n).map fun p => (p.2, content p.1)).filter fun p => !p.2.isEmpty

theorem filledLines_eq (text : List Char) : filledLines text = filledFrom 1 text := rfl

/-- The line with the number `n`, if it holds something. -/
def filledLine (n : Nat) (line : List Char) : List (Nat × List Char) :=
  if content line = [] then [] else [(n, content line)]

theorem filledFrom_of_last (h : '\n' ∉ line) (n : Nat) :
    filledFrom n line = filledLine n line := by
  by_cases hne : line = []
  · subst hne
    rfl
  · simp [filledFrom, linesOf_of_notMem h hne, filledLine, List.filter_cons]

theorem filledFrom_of_feed (h : '\n' ∉ line) (n : Nat) (cs : List Char) :
    filledFrom n (line ++ '\n' :: cs) = filledLine n line ++ filledFrom (n + 1) cs := by
  obtain ⟨l, hlines, hcontent⟩ := exists_linesOf_eq h cs
  simp only [filledFrom, hlines, List.zipIdx_cons, List.map_cons, List.filter_cons, hcontent,
    filledLine]
  split <;> simp_all

/-- Numbers that begin later are greater by as many. -/
theorem filledFrom_add (n k : Nat) (cs : List Char) :
    filledFrom (n + k) cs = (filledFrom n cs).map (Prod.map (· + k) id) := by
  rw [filledFrom, filledFrom, Nat.add_comm, ← List.map_snd_add_zipIdx_eq_zipIdx, List.map_map,
    List.filter_map, List.filter_map, List.map_map]
  rfl

/-- The lines of the second text go on below those of the first. -/
theorem filledFrom_append (n : Nat) (as bs : List Char) :
    filledFrom n (as ++ '\n' :: bs) =
      filledFrom n as ++ filledFrom (n + (1 + as.count '\n')) bs := by
  induction as using line_induction generalizing n with
  | last line h =>
    rw [filledFrom_of_feed h, filledFrom_of_last h, List.count_eq_zero.2 h]
  | feed line rest h ih =>
    have hcount : n + 1 + (1 + rest.count '\n') = n + (1 + (line ++ '\n' :: rest).count '\n') := by
      simp [List.count_eq_zero.2 h]
      omega
    rw [List.append_assoc, List.cons_append, filledFrom_of_feed h, ih, filledFrom_of_feed h, hcount,
      List.append_assoc]

theorem filledLines_append (as bs : List Char) :
    filledLines (as ++ '\n' :: bs) =
      filledLines as ++ (filledLines bs).map (Prod.map (· + (1 + as.count '\n')) id) := by
  rw [filledLines_eq, filledFrom_append, filledFrom_add]
  rfl

end Text

namespace Format

variable {α : Type}

/-- A line as it is read with its number. -/
def readNumbered (read : List Char → Except FormatFault α) (p : Nat × List Char) :
    Except FormatError (Nat × α) :=
  match read p.2 with
  | .ok a => .ok (p.1, a)
  | .error f => .error ⟨p.1, f⟩

theorem readLines_eq (read : List Char → Except FormatFault α) (text : String) :
    readLines read text = (Text.filledLines text.toList).mapM (readNumbered read) := rfl

end Format

end TabularParsing
