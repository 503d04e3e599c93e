import TabularParsing.Proofs.Span.Derivability
import TabularParsing.Recognizer

/-!
# Recognition is sound and complete

The chart of first proofs sets a cell exactly if its symbol derives its span, so a sentence is
recognised exactly if the start symbol derives its words.

## Main statement

* `Grammar.recognition_sound_complete`
-/
namespace TabularParsing.Grammar

variable {g : Grammar}

theorem admits_firstProof (g : Grammar) :
    g.Admits firstProof (fun _ => ()) (fun _ => True) fun _ => True where
  leaf _ _ i := ⟨fun _ => trivial, fun _ => ⟨.leaf i, rfl⟩⟩
  ok_leaf _ _ _ _ _ := trivial
  split _ _ k _ l _ _ _ := ⟨fun _ => trivial, fun _ => ⟨.split k l, rfl⟩⟩
  ok_split _ _ _ _ _ _ _ _ _ _ := trivial

theorem contains_proofChart_iff {tokens : List String} {lhs : String} {first last a : Nat}
    (ha : g.index? lhs = some a) (hfirst : 1 ≤ first) (hle : first ≤ last)
    (hlast : last ≤ tokens.length) :
    (g.proofChart tokens).contains ⟨first, last, a⟩ = true ↔
      g.Derives lhs (segment tokens (first - 1) last) := by
  rw [SpanMap.contains, Option.isSome_iff_exists, proofChart,
    g.admits_firstProof.get?_chart_iff ha hfirst hle hlast]
  simp only [and_true]
  rfl

theorem recognizes_iff {start : String} {tokens : List String} :
    g.recognizes start tokens = true ↔ g.Derives start tokens := by
  constructor
  · intro h
    unfold recognizes at h
    split at h
    · cases h
    · rename_i a ha
      have hvalid : Constituent.Valid ⟨1, tokens.length, a⟩ _ _ :=
        Admits.valid_of_get?_chart (Option.isSome_iff_exists.1 h).choose_spec
      rw [contains_proofChart_iff ha (Nat.le_refl 1) hvalid.2.1 (Nat.le_refl _)] at h
      simpa using h
  · intro h
    obtain ⟨a, ha⟩ := exists_index? h.mem_nonterminals
    have hlen : 1 ≤ tokens.length := List.length_pos_iff.2 h.ne_nil
    rw [recognizes, ha]
    exact (contains_proofChart_iff ha (Nat.le_refl 1) hlen (Nat.le_refl _)).2 (by simpa using h)

/-- A cell is set exactly if its symbol derives its span. A sentence is recognised exactly if its
start is a nonterminal that derives its words; so the empty sentence never is, and none from a
start that is no nonterminal. -/
theorem recognition_sound_complete (g : Grammar) :
    (∀ (tokens : List String) (lhs : String) (first last a : Nat), g.index? lhs = some a →
      1 ≤ first → first ≤ last → last ≤ tokens.length →
      ((g.proofChart tokens).contains ⟨first, last, a⟩ = true ↔
        g.Derives lhs (segment tokens (first - 1) last))) ∧
    (∀ sentence start : String, g.recognizesSentence sentence start = true ↔
      start ∈ g.nonterminals ∧ g.Derives start (Text.words sentence)) ∧
    (∀ sentence start : String, Text.words sentence = [] ∨ start ∉ g.nonterminals →
      g.recognizesSentence sentence start = false) := by
  have hsentence : ∀ sentence start : String, g.recognizesSentence sentence start = true ↔
      start ∈ g.nonterminals ∧ g.Derives start (Text.words sentence) := by
    intro sentence start
    rw [recognizesSentence, recognizes_iff]
    exact ⟨fun h => ⟨h.mem_nonterminals, h⟩, And.right⟩
  refine ⟨fun tokens lhs first last a => contains_proofChart_iff, hsentence, ?_⟩
  intro sentence start h
  rw [← Bool.not_eq_true, hsentence]
  rintro ⟨hstart, hderives⟩
  rcases h with h | h
  · exact hderives.ne_nil h
  · exact h hstart

/-- Words in any number from one symbol, with a rule whose right child nothing rewrites. -/
def doubling : Grammar :=
  .make [.pair "S" "S" "S", .word "S" "x", .pair "S" "S" "Y"] (by simp)

theorem recognition_sound_complete_doubling :
    doubling.index? "S" = some 0 ∧
    ((doubling.proofChart ["x", "x", "x"]).contains ⟨2, 3, 0⟩ = true ↔
      doubling.Derives "S" ["x", "x"]) ∧
    "Y" ∉ doubling.nonterminals ∧ doubling.recognizesSentence "x x" "Y" = false := by
  have hindex : doubling.index? "S" = some 0 := by decide
  have hY : "Y" ∉ doubling.nonterminals := by decide
  exact ⟨hindex, (recognition_sound_complete doubling).1 ["x", "x", "x"] "S" 2 3 0 hindex
    (by decide) (by decide) (by decide), hY,
    (recognition_sound_complete doubling).2.2 "x x" "Y" (.inr hY)⟩

end TabularParsing.Grammar
