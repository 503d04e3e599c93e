import TabularParsing.Proofs.Text.Numbering
import TabularParsing.Proofs.Text.Printed

/-!
# Spacing

Blanks keep characters apart: what stands on both sides of a gap is read as each side is read alone.
What a line holds does not depend on the blanks in front of it and behind it, and not on a comment
behind a blank.

## Main definitions

* `Text.IsGap`: blanks within a line.
* `Text.SpreadOut`: words with blanks between them.
* `Text.IsTail`: what may stand behind the last word of a line.

## Main statements

* `Text.SpreadOut.isContent`, `Text.SpreadOut.wordsOf_eq`: words that are spread out.
* `Text.IsContent.content_eq`: a line around what it holds.
* `Text.content_comment`: a line with a comment only.
-/
namespace TabularParsing

namespace Text

variable {x y : Char} {as bs cs gap : List Char}

/-! ## Blanks keep characters apart -/

theorem Mentions.of_blanks_append (hx : isBlank x = false) (hy : isBlank y = false)
    (hgap : ∀ c ∈ gap, isBlank c = true) (h : Mentions x y (gap ++ bs)) : Mentions x y bs := by
  induction gap with
  | nil => exact h
  | cons c gap ih =>
    obtain ⟨hc, hgap⟩ := List.forall_mem_cons.1 hgap
    have h : Mentions x y ([] ++ c :: (gap ++ bs)) := h
    exact ih hgap ((h.of_append_cons (by grind) (by grind)).resolve_left not_mentions_nil)

theorem Mentions.of_append_gap (hx : isBlank x = false) (hy : isBlank y = false)
    (hgap : ∀ c ∈ gap, isBlank c = true) (hne : gap ≠ []) (h : Mentions x y (as ++ gap ++ bs)) :
    Mentions x y as ∨ Mentions x y bs := by
  cases gap with
  | nil => exact absurd rfl hne
  | cons c gap =>
    obtain ⟨hc, hgap⟩ := List.forall_mem_cons.1 hgap
    rw [List.append_assoc] at h
    exact (h.of_append_cons (by grind) (by grind)).imp_right (of_blanks_append hx hy hgap)

theorem Mentions.of_append_blanks (hx : isBlank x = false) (hy : isBlank y = false)
    (hgap : ∀ c ∈ gap, isBlank c = true) (h : Mentions x y (as ++ gap)) : Mentions x y as := by
  by_cases hne : gap = []
  · subst hne
    simpa using h
  · have h : Mentions x y (as ++ gap ++ []) := by simpa using h
    exact (h.of_append_gap hx hy hgap hne).resolve_right not_mentions_nil

theorem wordsOf_blanks_append (hgap : ∀ c ∈ gap, isBlank c = true) (cs : List Char) :
    wordsOf (gap ++ cs) = wordsOf cs := by
  induction gap with
  | nil => rfl
  | cons c gap ih =>
    obtain ⟨hc, hgap⟩ := List.forall_mem_cons.1 hgap
    rw [List.cons_append, wordsOf_blank _ hc, ih hgap]

/-! ## Words with blanks between them -/

/-- Blanks within a line. -/
structure IsGap (gap : List Char) : Prop where
  blank : ∀ c ∈ gap, isBlank c = true
  no_feed : '\n' ∉ gap

theorem isGap_nil : IsGap [] := ⟨by simp, by simp⟩

theorem IsGap.cons (hc : isBlank c = true) (hfeed : c ≠ '\n') (h : IsGap gap) :
    IsGap (c :: gap) where
  blank := List.forall_mem_cons.2 ⟨hc, h.blank⟩
  no_feed := List.not_mem_cons_of_ne_of_not_mem hfeed.symm h.no_feed

/-- Words with blanks between them. -/
inductive SpreadOut : List String → List Char → Prop where
  | last (w : String) : SpreadOut [w] w.toList
  | cons (w : String) {ws : List String} {gap cs : List Char} : IsGap gap → gap ≠ [] →
      SpreadOut ws cs → SpreadOut (w :: ws) (w.toList ++ gap ++ cs)

/-- What may stand behind the last word of a line: blanks, and after a blank a comment. -/
inductive IsTail : List Char → Prop where
  | blanks {gap : List Char} : IsGap gap → IsTail gap
  | comment {gap cs : List Char} : IsGap gap → gap ≠ [] → '\n' ∉ cs →
      IsTail (gap ++ '/' :: '/' :: cs)

theorem IsWord.isContent {w : String} (h : IsWord w) (hcomment : ¬ Mentions '/' '/' w.toList) :
    IsContent w.toList where
  begins := h.beginsWord
  ends := h.beginsWord_reverse
  no_feed hfeed := by
    have hblank := h.2 _ hfeed
    revert hblank
    decide
  no_comment := hcomment

/-- Two pieces of a line stand for themselves with a gap between them. -/
theorem IsContent.append_gap (has : IsContent as) (hgap : IsGap gap) (hne : gap ≠ [])
    (hbs : IsContent bs) : IsContent (as ++ gap ++ bs) where
  begins := by
    rw [List.append_assoc]
    exact beginsWord_append has.begins _
  ends := by
    rw [List.reverse_append]
    exact beginsWord_append hbs.ends _
  no_feed := by simp [has.no_feed, hgap.no_feed, hbs.no_feed]
  no_comment h := (h.of_append_gap (by decide) (by decide) hgap.blank hne).elim has.no_comment
    hbs.no_comment

theorem SpreadOut.isContent {ws : List String} (h : SpreadOut ws cs)
    (hws : ∀ w ∈ ws, IsWord w ∧ ¬ Mentions '/' '/' w.toList) : IsContent cs := by
  induction h with
  | last w =>
    obtain ⟨hw, hcomment⟩ := hws w List.mem_cons_self
    exact hw.isContent hcomment
  | cons w hgap hne _ ih =>
    obtain ⟨⟨hw, hcomment⟩, hws⟩ := List.forall_mem_cons.1 hws
    exact (hw.isContent hcomment).append_gap hgap hne (ih hws)

theorem SpreadOut.wordsOf_eq {ws : List String} (h : SpreadOut ws cs)
    (hws : ∀ w ∈ ws, IsWord w) : wordsOf cs = ws.map String.toList := by
  induction h with
  | last w => exact (hws w List.mem_cons_self).wordsOf_toList
  | @cons w ws gap cs hgap hne _ ih =>
    obtain ⟨⟨hne', hw⟩, hws⟩ := List.forall_mem_cons.1 hws
    have hbegin : beginsWord (gap ++ cs) = false := by
      cases gap with
      | nil => exact absurd rfl hne
      | cons c gap => simp [beginsWord, hgap.blank c List.mem_cons_self]
    rw [List.append_assoc, wordsOf_append hne' hw hbegin, wordsOf_blanks_append hgap.blank, ih hws,
      List.map_cons]

/-! ## A line around what it holds -/

/-- A comment begins at the first two slashes. -/
theorem beforeComment_append_comment (h : ¬ Mentions '/' '/' (as ++ ['/'])) (bs : List Char) :
    beforeComment (as ++ '/' :: '/' :: bs) = as := by
  induction as with
  | nil => rfl
  | cons a as ih =>
    have ih := ih fun has => h (has.cons a)
    rw [List.cons_append, beforeComment, ih]
    rintro rest rfl hrest
    cases as with
    | nil => exact h (mentions_cons_cons.2 (.inl ⟨rfl, rfl⟩))
    | cons d as =>
      obtain ⟨rfl, -⟩ := List.cons.inj hrest
      exact h (mentions_cons_cons.2 (.inl ⟨rfl, rfl⟩))

/-- A comment behind a blank is no matter. -/
theorem content_append_comment (h : ¬ Mentions '/' '/' as) (hgap : IsGap gap) (hne : gap ≠ [])
    (bs : List Char) : content (as ++ gap ++ '/' :: '/' :: bs) = trimmed as := by
  have hslash : ¬ Mentions '/' '/' (as ++ gap ++ ['/']) := fun hmentions =>
    (hmentions.of_append_gap (by decide) (by decide) hgap.blank hne).elim h not_mentions_singleton
  rw [content, beforeComment_append_comment hslash, trimmed_append_blanks hgap.blank]

/-- A line holds what stands between its indentation and its tail. -/
theorem IsContent.content_eq (h : IsContent cs) {indent tail : List Char} (hindent : IsGap indent)
    (htail : IsTail tail) : content (indent ++ cs ++ tail) = cs := by
  have hcomment : ¬ Mentions '/' '/' (indent ++ cs) := fun hmentions =>
    h.no_comment (hmentions.of_blanks_append (by decide) (by decide) hindent.blank)
  have htrimmed : trimmed (indent ++ cs) = cs := by
    rw [trimmed_blanks_append hindent.blank, trimmed_eq h.begins h.ends]
  cases htail with
  | blanks hgap =>
    rw [content_append_blanks hgap.blank, content, beforeComment_eq hcomment, htrimmed]
  | comment hgap hne _ =>
    rw [← List.append_assoc, content_append_comment hcomment hgap hne, htrimmed]

theorem IsTail.no_feed {tail : List Char} (h : IsTail tail) : '\n' ∉ tail := by
  cases h with
  | blanks hgap => exact hgap.no_feed
  | comment hgap _ hcs => simp [hgap.no_feed, hcs]

theorem content_of_isGap (h : IsGap gap) : content gap = [] := by
  simpa using content_append_blanks h.blank []

/-- A line that holds a comment only. -/
theorem content_comment (h : IsGap gap) (cs : List Char) :
    content (gap ++ '/' :: '/' :: cs) = [] := by
  have hslash : ¬ Mentions '/' '/' (gap ++ ['/']) := fun hmentions =>
    not_mentions_singleton (hmentions.of_blanks_append (by decide) (by decide) h.blank)
  rw [content, beforeComment_append_comment hslash]
  simpa using trimmed_append_blanks h.blank []

end Text

end TabularParsing
