import TabularParsing.Proofs.Double.UnitInterval
import TabularParsing.Proofs.Earley.Soundness
import TabularParsing.Proofs.Fallible
import TabularParsing.Proofs.Text.Lines
import TabularParsing.WeightedGrammar.Text

/-!
# Grammars read from text

A grammar that is read from text starts as the empty one and has one rule or word added for each
line, with a weight between zero and one. So the productions of its rules are told apart by their
first letters.

## Main statements

* `WeightedGrammar.ofText_induction_lines`, `WeightedGrammar.ofText_induction`: what every grammar
  has that is read from text.
* `WeightedGrammar.start_of_ofText`, `WeightedGrammar.classified_of_ofText`,
  `WeightedGrammar.weightsIn_of_ofText`
-/
namespace TabularParsing

namespace Format

/-- What is read is read from some line, and comments are not read. -/
theorem exists_of_mem_readLines {α : Type} {read : List Char → Except FormatFault α}
    {text : String} {es : List (Nat × α)} (h : readLines read text = .ok es) {n : Nat} {a : α}
    (ha : (n, a) ∈ es) : ∃ line, read line = .ok a ∧ ¬ Text.Mentions '/' '/' line := by
  obtain ⟨p, hp, ha⟩ := exists_of_mem_mapM h ha
  split at ha
  · rename_i hread
    obtain ⟨-, rfl⟩ := Prod.mk.inj (Except.ok.inj ha)
    exact ⟨p.2, hread, Text.not_mentions_of_mem_filledLines hp⟩
  · cases ha

/-- The numbers of the lines may be left out. -/
theorem exists_of_mem_map_readLines {α : Type} {read : List Char → Except FormatFault α}
    {text : String} {as : List α}
    (h : (readLines read text).map (fun es => es.map Prod.snd) = .ok as) {a : α} (ha : a ∈ as) :
    ∃ line, read line = .ok a ∧ ¬ Text.Mentions '/' '/' line := by
  cases hes : readLines read text with
  | error e =>
    rw [hes] at h
    cases h
  | ok es =>
    rw [hes] at h
    obtain rfl := Except.ok.inj h
    obtain ⟨⟨n, a⟩, he, rfl⟩ := List.mem_map.1 ha
    exact exists_of_mem_readLines hes he

theorem inUnit_of_readProbability {token : String} {p : Float}
    (h : readProbability token = .ok p) : InUnit p := by
  unfold readProbability at h
  split at h
  · split at h
    · rename_i hunit
      obtain rfl := Except.ok.inj h
      exact hunit
    · cases h
  · cases h

theorem inUnit_of_splitWeight {tokens symbols : List String} {p : Float}
    (h : splitWeight tokens = .ok (symbols, p)) : InUnit p := by
  have hone : InUnit (1.0 : Float) := Double.unitProducts_double.inUnit_one
  unfold splitWeight at h
  split at h
  · obtain ⟨-, rfl⟩ := Prod.mk.inj (Except.ok.inj h)
    exact hone
  · split at h
    · rename_i token _ _
      cases hread : readProbability token with
      | error f => rw [hread] at h; cases h
      | ok q =>
        rw [hread] at h
        obtain ⟨-, rfl⟩ := Prod.mk.inj (Except.ok.inj h)
        exact inUnit_of_readProbability hread
    · obtain ⟨-, rfl⟩ := Prod.mk.inj (Except.ok.inj h)
      exact hone

theorem inUnit_of_readWeighted {line : List Char} {e : WeightedEntry}
    (h : readWeighted line = .ok e) : InUnit e.weight := by
  obtain ⟨entry, -, h⟩ := exists_of_bind_ok h
  obtain ⟨⟨symbols, p⟩, hsplit, h⟩ := exists_of_bind_ok h
  cases symbols with
  | nil => cases h
  | cons s symbols =>
    obtain rfl := Except.ok.inj h
    exact inUnit_of_splitWeight hsplit

end Format

namespace WeightedGrammar

/-- An entry whose left-hand side starts with an uppercase letter is a rule, any other lists one
word. -/
theorem addEntry_cases {g g' : WeightedGrammar Float} {n : Nat} {e : Format.WeightedEntry}
    (h : g.addEntry n e = .ok g') :
    (Text.startsUppercase e.lhs = true ∧ g.addSymbols e.lhs e.symbols e.weight = .ok g') ∨
      (Text.startsUppercase e.lhs = false ∧
        ∃ word, e.symbols = [word] ∧ g' = g.listWord e.lhs word e.weight) := by
  unfold addEntry at h
  split at h
  · rename_i hupper
    cases hsymbols : g.addSymbols e.lhs e.symbols e.weight with
    | error f => rw [hsymbols] at h; cases h
    | ok g₁ =>
      rw [hsymbols] at h
      obtain rfl := Except.ok.inj h
      exact .inl ⟨hupper, rfl⟩
  · rename_i hlower
    split at h
    · rename_i word hword
      obtain rfl := Except.ok.inj h
      exact .inr ⟨by simpa using hlower, word, hword, rfl⟩
    · cases h

/-- What the empty grammar has and every line keeps, every grammar has that is read from text. -/
theorem ofText_induction_lines {P : WeightedGrammar Float → Prop} {text : String}
    {g : WeightedGrammar Float} (hempty : P (empty standardStart))
    (hline : ∀ {g g' : WeightedGrammar Float} {line : List Char} {n : Nat}
      {e : Format.WeightedEntry}, P g → Format.readWeighted line = .ok e →
      ¬ Text.Mentions '/' '/' line → g.addEntry n e = .ok g' → P g')
    (h : ofText text = .ok g) : P g := by
  obtain ⟨entries, hentries, h⟩ := exists_of_bind_ok h
  obtain ⟨g', hg', h⟩ := exists_of_bind_ok h
  split at h
  · cases h
  · obtain rfl := Except.ok.inj h
    refine foldlM_induction (fun e he g g' hg hadd => ?_) hempty hg'
    obtain ⟨line, hread, hcomment⟩ := Format.exists_of_mem_readLines hentries he
    exact hline hg hread hcomment hadd

/-- What the empty grammar has and every addition of a rule or a word keeps, every grammar has that
is read from text. -/
theorem ofText_induction {P : WeightedGrammar Float → Prop} {text : String}
    {g : WeightedGrammar Float} (hempty : P (empty standardStart))
    (hrule : ∀ {g g' : WeightedGrammar Float} {lhs : String} {symbols : List String} {w : Float},
      P g → InUnit w → g.addSymbols lhs symbols w = .ok g' → P g')
    (hword : ∀ {g : WeightedGrammar Float} {category word : String} {w : Float},
      P g → InUnit w → P (g.listWord category word w))
    (h : ofText text = .ok g) : P g := by
  refine ofText_induction_lines hempty (fun hg hread _ hadd => ?_) h
  have hw := Format.inUnit_of_readWeighted hread
  rcases addEntry_cases hadd with ⟨-, hadd⟩ | ⟨-, word, -, rfl⟩
  · exact hrule hg hw hadd
  · exact hword hg hw

theorem start_of_ofText {text : String} {g : WeightedGrammar Float} (h : ofText text = .ok g) :
    g.start = standardStart := by
  refine ofText_induction (P := fun g => g.start = standardStart) rfl ?_ (fun hg _ => hg) h
  intro g g' lhs symbols w hg _ hadd
  obtain ⟨hne, rfl⟩ := exists_addFilled_of_addSymbols hadd
  exact hg

theorem classified_of_ofText {text : String} {g : WeightedGrammar Float}
    (h : ofText text = .ok g) : g.Classified :=
  ofText_induction (P := Classified) (classified_empty _) (fun hg _ hadd => hg.addSymbols hadd)
    (fun hg _ => hg.listWord _ _ _) h

theorem weightsIn_of_ofText {text : String} {g : WeightedGrammar Float}
    (h : ofText text = .ok g) : g.WeightsIn fun w => InUnit w :=
  ofText_induction (P := fun g => g.WeightsIn fun w => InUnit w) (weightsIn_empty _)
    (fun hg hw hadd => hg.addSymbols hw hadd) (fun hg hw => hg.listWord _ _ hw) h

end WeightedGrammar

end TabularParsing
