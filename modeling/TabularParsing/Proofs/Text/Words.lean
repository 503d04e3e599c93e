import TabularParsing.Proofs.Grammar.Pass
import TabularParsing.Proofs.Text.ReadGrammar

/-!
# Words of a sentence

Words joined by single spaces are split into the same words again, unless one of them is empty or
holds a blank. The words of a grammar that is read from text are tokens of its lines, so all that
it derives are such words.

## Main definitions

* `Text.IsWord`: what splitting a text yields.

## Main statements

* `Text.words_intercalate`: joining and splitting gives back the words.
* `Grammar.isWord_of_ofText`, `Grammar.DerivesBy.forall_word`: grammars derive such words.
-/
namespace TabularParsing

namespace Text

/-- A text that is not empty and holds no blank. -/
def IsWord (w : String) : Prop := w.toList ≠ [] ∧ ∀ c ∈ w.toList, isBlank c = false

-- over the characters of the word, not over all characters
instance (w : String) : Decidable (IsWord w) :=
  decidable_of_iff (w.toList ≠ [] ∧ w.toList.all (fun c => !isBlank c) = true) (by simp [IsWord])

theorem isWord_ofList {w cs : List Char} (h : w ∈ wordsOf cs) : IsWord (String.ofList w) := by
  rw [IsWord, String.toList_ofList]
  exact mem_wordsOf h

/-- Words joined by single spaces are the words of the whole. -/
theorem wordsOf_intercalate {ws : List (List Char)}
    (hws : ∀ w ∈ ws, w ≠ [] ∧ ∀ c ∈ w, isBlank c = false) :
    wordsOf ([' '].intercalate ws) = ws := by
  induction ws with
  | nil => rfl
  | cons w ws ih =>
    obtain ⟨hne, hw⟩ := hws w List.mem_cons_self
    cases ws with
    | nil =>
      have hword : wordsOf (w ++ []) = [w] := wordsOf_append hne hw rfl
      simpa [List.intercalate] using hword
    | cons v vs =>
      have ih := ih fun u hu => hws u (List.mem_cons_of_mem _ hu)
      have hjoin : [' '].intercalate (w :: v :: vs) = w ++ ' ' :: [' '].intercalate (v :: vs) := by
        simp [List.intercalate]
      rw [hjoin, wordsOf_append hne hw rfl, wordsOf_blank _ (by decide), ih]

theorem words_intercalate {ws : List String} (hws : ∀ w ∈ ws, IsWord w) :
    words (" ".intercalate ws) = ws := by
  have hsplit := wordsOf_intercalate (List.forall_mem_map.2 hws)
  rw [words, String.toList_intercalate, show " ".toList = [' '] from rfl, hsplit, List.map_map]
  simp

end Text

theorem Format.isWord_of_readRule {line : List Char} {lhs w : String}
    (h : readRule line = .ok (.word lhs w)) : Text.IsWord w := by
  obtain ⟨e, he, h⟩ := exists_of_bind_ok h
  have hw : w ∈ e.tokens := by
    unfold ruleOfTokens at h
    split at h
    · rename_i htokens
      obtain ⟨-, hrhs⟩ := Rule.mk.inj (Except.ok.inj h)
      obtain rfl := Rhs.word.inj hrhs
      rw [htokens]
      exact List.mem_singleton_self _
    · cases h
    · cases h
  unfold readEntry at he
  split at he
  · cases he
  · simp only at he
    split at he
    · obtain rfl := Except.ok.inj he
      obtain ⟨cs, hcs, rfl⟩ := List.mem_map.1 hw
      exact Text.isWord_ofList hcs
    · cases he

namespace Grammar

/-- Each rule of a grammar is read from some line of its text. -/
theorem exists_line_of_ofText {text : String} {g : Grammar} (h : ofText text = .ok g) {r : Rule}
    (hr : r ∈ g.rules) :
    ∃ line, Format.readRule line = .ok r ∧ ¬ Text.Mentions '/' '/' line := by
  obtain ⟨rules, hrules, h⟩ := exists_of_bind_ok h
  have hmem : r ∈ rules := by
    obtain ⟨_, rfl⟩ := ofRules_eq_ok_iff.1 h
    exact mem_rules_make.1 hr
  exact Format.exists_of_mem_map_readLines hrules hmem

theorem isWord_of_ofText {text : String} {g : Grammar} (h : ofText text = .ok g) {lhs w : String}
    (hr : .word lhs w ∈ g.rules) : Text.IsWord w := by
  obtain ⟨line, hline, -⟩ := exists_line_of_ofText h hr
  exact Format.isWord_of_readRule hline

/-- All words of a derivation are words of rules. -/
theorem DerivesBy.forall_word {usable : Rule → Prop} {P : String → Prop} {symbol : String}
    {ws : List String} (hrule : ∀ {lhs w : String}, usable (.word lhs w) → P w)
    (h : DerivesBy usable symbol ws) : ∀ w ∈ ws, P w := by
  induction h with
  | word hr => exact List.forall_mem_singleton.2 (hrule hr)
  | pair _ _ _ hleft hright => exact List.forall_mem_append.2 ⟨hleft, hright⟩

end Grammar

end TabularParsing
