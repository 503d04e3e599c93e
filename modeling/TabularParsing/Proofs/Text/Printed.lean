import TabularParsing.Proofs.Text.Lines
import TabularParsing.Proofs.Text.Words

/-!
# Entries that are printed and read back

An entry is printed on a line of its own, its symbols separated by single spaces. It is read back
as it was if its symbols are words without a comment in them, and its left-hand side holds no
arrow; and every entry that is read is such an entry.

## Main definitions

* `Format.Entry.text`: the line of an entry.
* `Format.Entry.Printable`: entries that can be told from their lines.

## Main statements

* `Format.Entry.Printable.readEntry_text`: what is printed is read back.
* `Format.printable_of_readEntry`: what is read can be printed.
* `Format.readLines_join`: entries below each other.
-/
namespace TabularParsing

namespace Text

/-! ## Words behind single spaces -/

/-- Each word behind a space of its own. -/
def spaced (ws : List String) : List Char := ws.flatMap fun w => ' ' :: w.toList

theorem spaced_cons (w : String) (ws : List String) :
    spaced (w :: ws) = ' ' :: (w.toList ++ spaced ws) := rfl

theorem toList_foldl_append (ws : List String) (s : String) :
    (ws.foldl (fun t w => t ++ " " ++ w) s).toList = s.toList ++ spaced ws := by
  induction ws generalizing s with
  | nil => simp [spaced]
  | cons w ws ih => simp [ih, spaced_cons]

theorem beginsWord_spaced (ws : List String) : beginsWord (spaced ws) = false := by
  cases ws with
  | nil => rfl
  | cons w ws => rfl

theorem wordsOf_spaced {ws : List String} (h : ∀ w ∈ ws, IsWord w) :
    wordsOf (spaced ws) = ws.map String.toList := by
  induction ws with
  | nil => rfl
  | cons w ws ih =>
    obtain ⟨⟨hne, hw⟩, hws⟩ := List.forall_mem_cons.1 h
    rw [spaced_cons, wordsOf_blank _ (by decide), wordsOf_append hne hw (beginsWord_spaced ws),
      ih hws, List.map_cons]

theorem not_mentions_append_spaced {cs : List Char} {ws : List String}
    (hcs : ¬ Mentions '/' '/' cs) (hws : ∀ w ∈ ws, ¬ Mentions '/' '/' w.toList) :
    ¬ Mentions '/' '/' (cs ++ spaced ws) := by
  induction ws generalizing cs with
  | nil => simpa [spaced] using hcs
  | cons w ws ih =>
    obtain ⟨hw, hws⟩ := List.forall_mem_cons.1 hws
    intro h
    rcases h.of_append_cons (by decide) (by decide) with h | h
    · exact hcs h
    · exact ih hw hws h

theorem notMem_spaced {c : Char} (hc : isBlank c = true) (hspace : c ≠ ' ') {ws : List String}
    (h : ∀ w ∈ ws, IsWord w) : c ∉ spaced ws := by
  intro hmem
  obtain ⟨w, hw, hmem⟩ := List.mem_flatMap.1 hmem
  rcases List.mem_cons.1 hmem with rfl | hmem
  · exact hspace rfl
  · rw [(h w hw).2 c hmem] at hc
    cases hc

/-! ## Words alone -/

variable {w : String}

theorem IsWord.beginsWord (h : IsWord w) : beginsWord w.toList = true := by
  obtain ⟨hne, hw⟩ := h
  generalize w.toList = cs at hne hw
  cases cs with
  | nil => exact absurd rfl hne
  | cons c cs => simp [Text.beginsWord, hw c List.mem_cons_self]

theorem IsWord.beginsWord_reverse (h : IsWord w) : Text.beginsWord w.toList.reverse = true := by
  have hreverse : IsWord (String.ofList w.toList.reverse) := by
    simpa [IsWord] using h
  simpa using hreverse.beginsWord

theorem IsWord.wordsOf_toList (h : IsWord w) : wordsOf w.toList = [w.toList] := by
  have hword : wordsOf (w.toList ++ []) = [w.toList] := wordsOf_append h.1 h.2 rfl
  rwa [List.append_nil] at hword

/-- A blank behind a word is cut off. -/
theorem IsWord.trimmed_append (h : IsWord w) {c : Char} (hc : isBlank c = true) :
    trimmed (w.toList ++ [c]) = w.toList := by
  rw [trimmed, dropWhile_isBlank (beginsWord_append h.beginsWord _), List.reverse_append]
  simp [hc, dropWhile_isBlank h.beginsWord_reverse]

end Text

namespace Format

open Text

namespace Entry

/-- The line of an entry. -/
def text (e : Entry) : String := e.tokens.foldl (fun t s => t ++ " " ++ s) (e.lhs ++ " ->")

theorem toList_text (e : Entry) :
    e.text.toList = e.lhs.toList ++ ' ' :: '-' :: '>' :: spaced e.tokens := by
  simp [text, toList_foldl_append]

/-- An entry that can be told from its line. -/
structure Printable (e : Entry) : Prop where
  lhs : IsWord e.lhs
  no_arrow : ¬ Mentions '-' '>' e.lhs.toList
  tokens : ∀ s ∈ e.tokens, IsWord s
  no_comment : ∀ s ∈ e.lhs :: e.tokens, ¬ Mentions '/' '/' s.toList

instance (e : Entry) : Decidable e.Printable :=
  decidable_of_iff (IsWord e.lhs ∧ ¬ Mentions '-' '>' e.lhs.toList ∧ (∀ s ∈ e.tokens, IsWord s) ∧
      ∀ s ∈ e.lhs :: e.tokens, ¬ Mentions '/' '/' s.toList)
    ⟨fun ⟨hlhs, harrow, htokens, hcomment⟩ => ⟨hlhs, harrow, htokens, hcomment⟩,
      fun h => ⟨h.lhs, h.no_arrow, h.tokens, h.no_comment⟩⟩

variable {e : Entry}

/-- Tokens may be left out. -/
theorem Printable.of_subset (h : e.Printable) {ss : List String} (hss : ss ⊆ e.tokens) :
    Printable ⟨e.lhs, ss⟩ where
  lhs := h.lhs
  no_arrow := h.no_arrow
  tokens s hs := h.tokens s (hss hs)
  no_comment s hs := h.no_comment s (List.cons_subset_cons _ hss hs)

/-- One more token may follow. -/
theorem Printable.concat (h : e.Printable) {s : String} (hs : IsWord s)
    (hcomment : ¬ Mentions '/' '/' s.toList) : Printable ⟨e.lhs, e.tokens ++ [s]⟩ where
  lhs := h.lhs
  no_arrow := h.no_arrow
  tokens := by simpa [or_imp, forall_and] using ⟨h.tokens, hs⟩
  no_comment := by
    have hold := h.no_comment
    simp only [List.mem_cons, List.mem_append, List.not_mem_nil, or_false] at hold ⊢
    rintro t (ht | ht | rfl)
    · exact hold t (.inl ht)
    · exact hold t (.inr ht)
    · exact hcomment

theorem Printable.isContent (h : e.Printable) : IsContent e.text.toList := by
  obtain ⟨hlhs, hrest⟩ := List.forall_mem_cons.1 h.no_comment
  rw [toList_text]
  refine ⟨beginsWord_append h.lhs.beginsWord _, ?_, ?_, ?_⟩
  · rcases List.eq_nil_or_concat e.tokens with hnil | ⟨ss, s, hss⟩
    · rw [hnil, spaced, List.flatMap_nil, List.reverse_append]
      exact beginsWord_append rfl _
    · have hs := h.tokens s (by simp [hss])
      have hend : spaced e.tokens = spaced ss ++ ' ' :: s.toList := by simp [hss, spaced]
      simp only [hend, List.reverse_append, List.reverse_cons, List.append_assoc]
      exact beginsWord_append hs.beginsWord_reverse _
  · have hblank : isBlank '\n' = true := by decide
    have hfeed := notMem_spaced hblank (by decide) h.tokens
    have hlhsfeed : '\n' ∉ e.lhs.toList := fun hmem => by
      rw [h.lhs.2 _ hmem] at hblank
      cases hblank
    simp [hfeed, hlhsfeed]
  · intro hcomment
    rcases hcomment.of_append_cons (by decide) (by decide) with hcomment | hcomment
    · exact hlhs hcomment
    · have harrow : ¬ Mentions '/' '/' ['-', '>'] := by simp [mentions_cons_cons]
      exact not_mentions_append_spaced harrow hrest hcomment

/-- What is printed is read back. -/
theorem Printable.readEntry_text (h : e.Printable) : readEntry e.text.toList = .ok e := by
  have harrow : ¬ Mentions '-' '>' (e.lhs.toList ++ [' ']) := fun harrow =>
    (harrow.of_append_cons (by decide) (by decide)).elim h.no_arrow not_mentions_nil
  have hsplit : splitArrow e.text.toList = some (e.lhs.toList ++ [' '], spaced e.tokens) := by
    rw [← splitArrow_append harrow, toList_text, List.append_assoc, List.singleton_append]
  have htrimmed : trimmed (e.lhs.toList ++ [' ']) = e.lhs.toList :=
    h.lhs.trimmed_append (by decide)
  simp [readEntry, hsplit, htrimmed, h.lhs.wordsOf_toList, wordsOf_spaced h.tokens]

end Entry

/-- What is read can be printed. -/
theorem printable_of_readEntry {line : List Char} {e : Entry} (h : readEntry line = .ok e)
    (hcomment : ¬ Mentions '/' '/' line) : e.Printable := by
  unfold readEntry at h
  split at h
  · cases h
  · rename_i left right hsplit
    simp only at h
    split at h
    · rename_i hlength
      obtain rfl := Except.ok.inj h
      obtain ⟨rfl, harrow⟩ := eq_append_of_splitArrow hsplit
      have hleft : left <:+: left ++ '-' :: '>' :: right := (List.prefix_append _ _).isInfix
      have hright : right <:+: left ++ '-' :: '>' :: right := ⟨left ++ ['-', '>'], [], by simp⟩
      refine ⟨?_, ?_, fun s hs => ?_, fun s hs => ?_⟩
      · have hlhs : trimmed left ∈ wordsOf (trimmed left) := by simp [wordsOf_trimmed hlength]
        exact isWord_ofList hlhs
      · rw [String.toList_ofList]
        exact fun h => harrow (h.mono (isInfix_trimmed left))
      · obtain ⟨w, hw, rfl⟩ := List.mem_map.1 hs
        exact isWord_ofList hw
      · rcases List.mem_cons.1 hs with rfl | hs
        · rw [String.toList_ofList]
          exact fun h => hcomment ((h.mono (isInfix_trimmed left)).mono hleft)
        · obtain ⟨w, hw, rfl⟩ := List.mem_map.1 hs
          rw [String.toList_ofList]
          exact fun h => hcomment ((h.mono (infix_of_mem_wordsOf hw)).mono hright)
    · cases h

/-! ## Entries below each other -/

variable {α : Type} {read : List Char → Except FormatFault α} {print : α → String}

/-- What is printed line by line is read back line by line, with the numbers of the lines. -/
theorem readLines_join {as : List α} (hcontent : ∀ a ∈ as, IsContent (print a).toList)
    (hread : ∀ a ∈ as, read (print a).toList = .ok a) :
    readLines read (String.join (as.map fun a => print a ++ "\n")) =
      .ok ((as.zipIdx 1).map Prod.swap) := by
  have htext : (String.join (as.map fun a => print a ++ "\n")).toList =
      (as.map fun a => (print a).toList).flatMap fun l => l ++ ['\n'] := by
    simp [String.toList_join, List.flatMap_map]
  have hlines := filledLines_flatMap (List.forall_mem_map.2 hcontent)
  rw [readLines, htext, hlines, List.zipIdx_map, List.map_map]
  refine mapM_map_eq_ok fun p hp => ?_
  have hp := hread p.1 (List.fst_mem_of_mem_zipIdx hp)
  simp only [Function.comp_apply, Prod.fst_swap, Prod.snd_swap, Prod.map_fst, Prod.map_snd, id, hp]
  rfl

end Format

end TabularParsing
