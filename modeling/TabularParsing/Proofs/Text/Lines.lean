import TabularParsing.Text.Lines

/-!
# Lines that stand for themselves

Lines that are written one below the other are read as they were written if none of them holds a
line feed or a comment and none begins or ends with a blank.

## Main definitions

* `Text.Mentions`: whether two characters stand next to each other.
* `Text.IsContent`: lines that stand for themselves.

## Main statements

* `Text.filledLines_flatMap`: lines written one below the other.
* `Text.splitArrow_append`: the first arrow.
* `Text.wordsOf_trimmed`: a text of one word is that word, if no blanks are around it.
-/
namespace TabularParsing.Text

/-! ## Two characters next to each other -/

/-- Whether the first character stands directly before the second somewhere. -/
def Mentions (x y : Char) (cs : List Char) : Prop := [x, y] <:+: cs

instance (x y : Char) (cs : List Char) : Decidable (Mentions x y cs) :=
  inferInstanceAs (Decidable ([x, y] <:+: cs))

variable {x y c d : Char} {as bs cs : List Char}

@[simp] theorem not_mentions_nil : ¬ Mentions x y [] := by simp [Mentions]

@[simp] theorem not_mentions_singleton : ¬ Mentions x y [c] := by
  simp [Mentions, List.infix_cons_iff]

theorem mentions_cons_cons :
    Mentions x y (c :: d :: cs) ↔ x = c ∧ y = d ∨ Mentions x y (d :: cs) := by
  rw [Mentions, List.infix_cons_iff, List.cons_prefix_cons, List.cons_prefix_cons, Mentions]
  simp

theorem Mentions.cons (h : Mentions x y cs) (c : Char) : Mentions x y (c :: cs) :=
  List.infix_cons h

theorem Mentions.mono (h : Mentions x y as) (hsub : as <:+: bs) : Mentions x y bs := h.trans hsub

/-- Another character keeps them apart. -/
theorem Mentions.of_append_cons (h : Mentions x y (as ++ c :: bs)) (hx : x ≠ c) (hy : y ≠ c) :
    Mentions x y as ∨ Mentions x y bs := by
  induction as with
  | nil => cases bs with
    | nil => simp at h
    | cons b bs => exact .inr ((mentions_cons_cons.1 h).resolve_left fun h => hx h.1)
  | cons a as ih => cases as with
    | nil =>
      rcases mentions_cons_cons.1 h with h | h
      · exact absurd h.2 hy
      · exact .inr ((ih h).resolve_left not_mentions_nil)
    | cons d as =>
      rcases mentions_cons_cons.1 h with h | h
      · exact .inl (mentions_cons_cons.2 (.inl h))
      · exact (ih h).imp_left fun h => h.cons a

theorem not_mentions_of_notMem (h : x ∉ cs) : ¬ Mentions x y cs := fun hxy =>
  h (List.IsInfix.subset hxy List.mem_cons_self)

/-! ## Comments and arrows -/

theorem beforeComment_eq (h : ¬ Mentions '/' '/' cs) : beforeComment cs = cs := by
  fun_induction beforeComment cs with
  | case1 => rfl
  | case2 cs => exact absurd (mentions_cons_cons.2 (.inl ⟨rfl, rfl⟩)) h
  | case3 c cs _ ih => rw [ih fun hcs => h (hcs.cons c)]

theorem isPrefix_beforeComment (cs : List Char) : beforeComment cs <+: cs := by
  fun_induction beforeComment cs with
  | case1 => exact List.prefix_rfl
  | case2 => exact List.nil_prefix
  | case3 c cs _ ih => exact List.cons_prefix_cons.2 ⟨rfl, ih⟩

theorem not_mentions_beforeComment (cs : List Char) : ¬ Mentions '/' '/' (beforeComment cs) := by
  fun_induction beforeComment cs with
  | case1 => simp
  | case2 => simp
  | case3 c cs hne ih =>
    intro h
    have hprefix := isPrefix_beforeComment cs
    cases hrest : beforeComment cs with
    | nil => simp [hrest] at h
    | cons d ds =>
      rw [hrest] at h ih hprefix
      rcases mentions_cons_cons.1 h with ⟨rfl, rfl⟩ | h
      · obtain ⟨rest, rfl⟩ := hprefix
        exact hne _ rfl rfl
      · exact ih h

/-- The first arrow is the one with none before it. -/
theorem splitArrow_append (h : ¬ Mentions '-' '>' as) :
    splitArrow (as ++ '-' :: '>' :: bs) = some (as, bs) := by
  induction as with
  | nil => rfl
  | cons a as ih =>
    have ih := ih fun has => h (has.cons a)
    rw [List.cons_append, splitArrow, ih]
    · rfl
    · intro rest ha hrest
      cases as with
      | nil => simp at hrest
      | cons d as =>
        obtain ⟨rfl, -⟩ := List.cons.inj hrest
        exact h (mentions_cons_cons.2 (.inl ⟨ha.symm, rfl⟩))

theorem eq_append_of_splitArrow (h : splitArrow cs = some (as, bs)) :
    cs = as ++ '-' :: '>' :: bs ∧ ¬ Mentions '-' '>' as := by
  fun_induction splitArrow cs generalizing as with
  | case1 => cases h
  | case2 cs =>
    obtain ⟨rfl, rfl⟩ := Prod.mk.inj (Option.some.inj h)
    simp
  | case3 c cs hne ih =>
    obtain ⟨⟨before, after⟩, hsplit, h⟩ := Option.map_eq_some_iff.1 h
    obtain ⟨rfl, rfl⟩ := Prod.mk.inj h
    obtain ⟨rfl, hbefore⟩ := ih hsplit
    refine ⟨rfl, fun h => ?_⟩
    cases before with
    | nil => simp at h
    | cons d before =>
      rcases mentions_cons_cons.1 h with ⟨rfl, rfl⟩ | h
      · exact hne _ rfl rfl
      · exact hbefore h

/-! ## Blanks around a text -/

theorem dropWhile_isBlank (h : beginsWord cs = true) : cs.dropWhile isBlank = cs := by
  cases cs with
  | nil => rfl
  | cons c cs =>
    have hc : isBlank c = false := by simpa [beginsWord] using h
    rw [List.dropWhile_cons, hc]
    rfl

theorem beginsWord_dropWhile (h : cs.dropWhile isBlank ≠ []) :
    beginsWord (cs.dropWhile isBlank) = true := by
  induction cs with
  | nil => exact absurd rfl h
  | cons c cs ih =>
    by_cases hc : isBlank c = true
    · rw [List.dropWhile_cons_of_pos hc] at h ⊢
      exact ih h
    · rw [List.dropWhile_cons_of_neg hc]
      simpa [beginsWord] using hc

theorem beginsWord_append (h : beginsWord as = true) (bs : List Char) :
    beginsWord (as ++ bs) = true := by
  cases as with
  | nil => cases h
  | cons a as => exact h

/-- A text with a blank at neither end is left as it is. -/
theorem trimmed_eq (hbegin : beginsWord cs = true) (hend : beginsWord cs.reverse = true) :
    trimmed cs = cs := by
  rw [trimmed, dropWhile_isBlank hbegin, dropWhile_isBlank hend, List.reverse_reverse]

theorem isInfix_trimmed (cs : List Char) : trimmed cs <:+: cs := by
  have hfront := List.dropWhile_suffix (l := cs) isBlank
  have hback := List.dropWhile_suffix (l := (cs.dropWhile isBlank).reverse) isBlank
  have hreverse := List.reverse_infix.2 hback.isInfix
  rw [List.reverse_reverse] at hreverse
  exact hreverse.trans hfront.isInfix

theorem beginsWord_trimmed (h : trimmed cs ≠ []) :
    beginsWord (trimmed cs) = true ∧ beginsWord (trimmed cs).reverse = true := by
  have hback : (cs.dropWhile isBlank).reverse.dropWhile isBlank ≠ [] := by
    simpa [trimmed] using h
  have hfront : cs.dropWhile isBlank ≠ [] := by
    rintro hnil
    rw [hnil] at hback
    exact hback rfl
  refine ⟨?_, by rw [trimmed, List.reverse_reverse]; exact beginsWord_dropWhile hback⟩
  obtain ⟨rest, hrest⟩ := List.dropWhile_suffix (l := (cs.dropWhile isBlank).reverse) isBlank
  have hbegin := beginsWord_dropWhile hfront
  rw [← List.reverse_reverse (cs.dropWhile isBlank), ← hrest, List.reverse_append] at hbegin
  rw [trimmed] at h ⊢
  generalize ((cs.dropWhile isBlank).reverse.dropWhile isBlank).reverse = ds at h hbegin
  cases ds with
  | nil => exact absurd rfl h
  | cons d ds => exact hbegin

/-! ## Words of a text -/

theorem isBlank_of_wordsOf_eq_nil (h : wordsOf cs = []) : ∀ c ∈ cs, isBlank c = true := by
  induction cs with
  | nil => simp
  | cons c cs ih =>
    rw [wordsOf] at h
    split at h
    · rename_i hc
      exact List.forall_mem_cons.2 ⟨hc, ih h⟩
    · split at h
      · rename_i hword
        cases cs with
        | nil => cases hword
        | cons d cs =>
          have hd := ih (by simpa using h) d List.mem_cons_self
          simp [beginsWord, hd] at hword
      · cases h

/-- A text that begins with a word, and what follows the word. -/
theorem exists_wordsOf_eq_cons (h : beginsWord cs = true) :
    ∃ w rest, cs = w ++ rest ∧ wordsOf cs = w :: wordsOf rest := by
  induction cs with
  | nil => cases h
  | cons c cs ih =>
    have hc : isBlank c = false := by simpa [beginsWord] using h
    cases hrest : beginsWord cs with
    | false => exact ⟨[c], cs, rfl, by simp [wordsOf, hc, hrest]⟩
    | true =>
      obtain ⟨w, rest, rfl, hwords⟩ := ih hrest
      exact ⟨c :: w, rest, rfl, by simp [wordsOf, hc, hrest, hwords]⟩

theorem infix_of_mem_wordsOf {w : List Char} (h : w ∈ wordsOf cs) : w <:+: cs := by
  induction hn : cs.length using Nat.strongRecOn generalizing cs with
  | ind n ih => cases hbegin : beginsWord cs with
    | true =>
      obtain ⟨v, rest, rfl, hwords⟩ := exists_wordsOf_eq_cons hbegin
      have hv : v ≠ [] := (mem_wordsOf (hwords ▸ List.mem_cons_self)).1
      rw [hwords] at h
      rcases List.mem_cons.1 h with rfl | h
      · exact (List.prefix_append _ _).isInfix
      · have hlt : rest.length < n := by
          have := List.length_pos_iff.2 hv
          grind
        exact (ih _ hlt h rfl).trans (List.suffix_append _ _).isInfix
    | false => cases cs with
      | nil => cases h
      | cons c cs =>
        have hc : isBlank c = true := by simpa [beginsWord] using hbegin
        rw [wordsOf_blank _ hc] at h
        exact List.infix_cons (ih _ (by grind) h rfl)

/-- A text without blanks around it that has one word is that word. -/
theorem wordsOf_trimmed (h : (wordsOf (trimmed cs)).length = 1) :
    wordsOf (trimmed cs) = [trimmed cs] := by
  have hne : trimmed cs ≠ [] := by
    rintro hnil
    rw [hnil] at h
    cases h
  obtain ⟨hbegin, hend⟩ := beginsWord_trimmed hne
  generalize trimmed cs = ds at h hbegin hend
  obtain ⟨w, rest, rfl, hwords⟩ := exists_wordsOf_eq_cons hbegin
  rw [hwords] at h
  have hrest : wordsOf rest = [] := List.length_eq_zero_iff.1 (by simpa using h)
  have hblank := isBlank_of_wordsOf_eq_nil hrest
  -- a blank rest would stand at the end of the text
  have hnil : rest = [] := by
    rw [List.reverse_append] at hend
    cases hreverse : rest.reverse with
    | nil => simpa using hreverse
    | cons c cs =>
      have hc := hblank c (by rw [← List.mem_reverse, hreverse]; exact List.mem_cons_self)
      rw [hreverse] at hend
      simp [beginsWord, hc] at hend
  rw [hwords, hrest, hnil, List.append_nil]

/-! ## Lines below each other -/

/-- A line that stands for itself. -/
structure IsContent (cs : List Char) : Prop where
  begins : beginsWord cs = true
  ends : beginsWord cs.reverse = true
  no_feed : '\n' ∉ cs
  no_comment : ¬ Mentions '/' '/' cs

theorem IsContent.ne_nil (h : IsContent cs) : cs ≠ [] := by
  rintro rfl
  cases h.begins

theorem linesOf_append (hfeed : '\n' ∉ as) (hend : as.getLast? ≠ some '\r') (cs : List Char) :
    linesOf (as ++ '\n' :: cs) = as :: linesOf cs := by
  induction as with
  | nil => rfl
  | cons a as ih =>
    obtain ⟨ha, has⟩ := not_or.1 (mt List.mem_cons.2 hfeed)
    have hend' : as.getLast? ≠ some '\r' := by
      cases as with
      | nil => simp
      | cons b as => rwa [List.getLast?_cons_cons] at hend
    rw [List.cons_append, linesOf, ih has hend']
    · exact fun h => ha h.symm
    · intro rest hreturn hrest
      -- a return before the line feed would be the last character
      cases as with
      | nil => exact hend (by rw [hreturn]; rfl)
      | cons b as => exact has (by simp [(List.cons.inj hrest).1])

theorem IsContent.getLast?_ne (h : IsContent cs) : cs.getLast? ≠ some '\r' := by
  intro hlast
  obtain ⟨ds, rfl⟩ := List.getLast?_eq_some_iff.1 hlast
  have hends := h.ends
  rw [List.reverse_append] at hends
  have hblank : isBlank '\r' = true := by decide
  simp [beginsWord, hblank] at hends

/-- Lines written one below the other are read as they were written. -/
theorem filledLines_flatMap {ls : List (List Char)} (h : ∀ l ∈ ls, IsContent l) :
    filledLines (ls.flatMap fun l => l ++ ['\n']) = (ls.zipIdx 1).map Prod.swap := by
  have hlines : linesOf (ls.flatMap fun l => l ++ ['\n']) = ls := by
    induction ls with
    | nil => rfl
    | cons l ls ih =>
      obtain ⟨hl, hls⟩ := List.forall_mem_cons.1 h
      rw [List.flatMap_cons, List.append_assoc, List.singleton_append,
        linesOf_append hl.no_feed hl.getLast?_ne, ih hls]
  have hkept : ∀ p ∈ ls.zipIdx 1, (p.2, trimmed (beforeComment p.1)) = p.swap ∧ p.1 ≠ [] := by
    intro p hp
    have hcontent := h p.1 (List.fst_mem_of_mem_zipIdx hp)
    rw [beforeComment_eq hcontent.no_comment, trimmed_eq hcontent.begins hcontent.ends]
    exact ⟨rfl, hcontent.ne_nil⟩
  rw [filledLines, hlines, List.map_congr_left fun p hp => (hkept p hp).1, List.filter_eq_self]
  intro q hq
  obtain ⟨p, hp, rfl⟩ := List.mem_map.1 hq
  simpa using (hkept p hp).2

/-- What is read from a line holds no comment. -/
theorem not_mentions_of_mem_filledLines {text : List Char} {p : Nat × List Char}
    (h : p ∈ filledLines text) : ¬ Mentions '/' '/' p.2 := by
  obtain ⟨q, -, rfl⟩ := List.mem_map.1 (List.mem_filter.1 h).1
  exact fun hcomment => not_mentions_beforeComment q.1 (hcomment.mono (isInfix_trimmed _))

end TabularParsing.Text
