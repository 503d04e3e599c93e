import TabularParsing.Proofs.Text.ReadGrammar
import TabularParsing.Proofs.WeightedGrammar.Persistence

/-!
# Where grammars come from

A grammar that is read from a text or from a document is built like any other, by adding rules and
words one by one. In a grammar that was built every symbol in the table of rules has a rule and
every category a word, so what it says of each symbol determines its tables, up to their shape.

## Main definition

* `WeightedGrammar.Made`: grammars from whatever source, with any start symbol.

## Main statements

* `WeightedGrammar.built_of_ofText`, `WeightedGrammar.built_of_ofJson`
* `WeightedGrammar.Built.text_eq`: grammars that say the same are printed the same.
-/
namespace TabularParsing.WeightedGrammar

/-! ## Reading is building -/

theorem built_of_ofText {text : String} {g : WeightedGrammar Float} (h : ofText text = .ok g) :
    Built g :=
  ofText_induction (P := Built) .empty (fun hg _ hadd => hg.addSymbols hadd)
    (fun hg _ => hg.listWord _ _ _) h

/-- A grammar without a rule is not read. -/
theorem isEmpty_rules_of_ofText {text : String} {g : WeightedGrammar Float}
    (h : ofText text = .ok g) : g.rules.isEmpty = false := by
  obtain ⟨entries, -, h⟩ := exists_of_bind_ok h
  obtain ⟨g', -, h⟩ := exists_of_bind_ok h
  split at h
  · cases h
  · rename_i hrules
    obtain rfl := Except.ok.inj h
    simpa using hrules

variable {W : Type} {g g' : WeightedGrammar W}

theorem Built.foldl_listWord (hg : Built g) (category : String) (weight : String → W)
    (words : List String) :
    Built (words.foldl (fun g w => g.listWord category w (weight w)) g) := by
  induction words generalizing g with
  | nil => exact hg
  | cons w words ih => exact ih (hg.listWord category w (weight w))

theorem Built.addDefinition [Zero W] (hg : Built g) {symbol : String}
    {ps : Option (Probabilities W)} {d : Definition}
    (h : Document.addDefinition g symbol ps d = .ok g') : Built g' := by
  cases d with
  | alternatives rhss =>
    simp only [Document.addDefinition] at h
    split at h
    · cases h
    · exact foldlM_induction (P := Built) (fun _ _ _ _ hg hadd => hg.addSymbols hadd) hg h
  | words words =>
    simp only [Document.addDefinition] at h
    split at h
    · cases h
    · obtain rfl := Except.ok.inj h
      exact hg.foldl_listWord symbol _ words

theorem built_of_ofJson {text : String} {g : WeightedGrammar Float} (h : ofJson text = .ok g) :
    Built g := by
  unfold ofJson at h
  split at h
  · exact foldlM_induction (P := Built) (fun _ _ _ _ hg hadd => hg.addDefinition hadd) .empty h
  · cases h

/-- Grammars that are read or begun anew, changed by adding rules and words and by setting the
start symbol. -/
inductive Made : WeightedGrammar Float → Prop where
  | new (start : String) : Made (.empty start)
  | ofText {text : String} {g : WeightedGrammar Float} : ofText text = .ok g → Made g
  | ofJson {text : String} {g : WeightedGrammar Float} : ofJson text = .ok g → Made g
  | addSymbols {g g' : WeightedGrammar Float} {lhs : String} {symbols : List String} {w : Float} :
      Made g → g.addSymbols lhs symbols w = .ok g' → Made g'
  | listWord {g : WeightedGrammar Float} (category word : String) (w : Float) :
      Made g → Made (g.listWord category word w)
  | startAt {g : WeightedGrammar Float} (start : String) : Made g → Made (g.startAt start)

theorem Made.classified {g : WeightedGrammar Float} (h : g.Made) : g.Classified := by
  induction h with
  | new start => exact classified_empty start
  | ofText h => exact classified_of_ofText h
  | ofJson h => exact (built_of_ofJson h).classified
  | addSymbols _ hadd ih => exact ih.addSymbols hadd
  | listWord category word w _ ih => exact ih.listWord category word w
  | startAt start _ ih => exact ih

/-- The start symbol has no weight. -/
theorem WeightsIn.startAt {W : Type} {P : W → Prop} {g : WeightedGrammar W} (h : g.WeightsIn P)
    (start : String) : (g.startAt start).WeightsIn P := ⟨fun hr => h.rules hr, fun hw => h.words hw⟩

/-! ## What the tables hold -/

/-- No symbol is in the table of rules without a rule. -/
theorem Built.ne_nil_of_getElem? (hg : Built g) {s : String} {rs : List (WeightedRule W)}
    (hrs : g.rules[s]? = some rs) : rs ≠ [] := by
  induction hg generalizing s rs with
  | empty => simp [WeightedGrammar.empty] at hrs
  | addSymbols _ hadd ih =>
    obtain ⟨hne, rfl⟩ := exists_addFilled_of_addSymbols hadd
    simp only [addFilled, Std.TreeMap.getElem?_insert] at hrs
    split at hrs
    · obtain rfl := Option.some.inj hrs
      simp
    · exact ih hrs
  | listWord _ _ _ _ ih => exact ih hrs

theorem Built.getElem?_rules (hg : Built g) (s : String) :
    g.rules[s]? = if g.alternatives s = [] then none else some (g.alternatives s) := by
  rw [alternatives_eq]
  cases hrs : g.rules[s]? with
  | none => rfl
  | some rs => simp [hg.ne_nil_of_getElem? hrs]

theorem isEmpty_rules_of_alternatives {s : String} (h : g.alternatives s ≠ []) :
    g.rules.isEmpty = false := by
  rw [Std.TreeMap.isEmpty_eq_false_iff_exists_mem]
  refine ⟨s, Std.TreeMap.mem_iff_isSome_getElem?.2 ?_⟩
  rw [alternatives_eq] at h
  cases hrs : g.rules[s]? with
  | none => rw [hrs] at h; exact absurd rfl h
  | some rs => rfl

theorem Built.exists_alternatives (hg : Built g) (h : g.rules.isEmpty = false) :
    ∃ s, g.alternatives s ≠ [] := by
  obtain ⟨s, hs⟩ := Std.TreeMap.isEmpty_eq_false_iff_exists_mem.1 h
  obtain ⟨rs, hrs⟩ := Option.isSome_iff_exists.1 (Std.TreeMap.mem_iff_isSome_getElem?.1 hs)
  exact ⟨s, by rw [alternatives_eq, hrs]; exact hg.ne_nil_of_getElem? hrs⟩

theorem Built.isCategory_iff (hg : Built g) {category : String} :
    g.isCategory category = true ↔ ∃ word w, g.wordWeight? category word = some w :=
  ⟨hg.exists_word, fun ⟨_, _, h⟩ => isCategory_of_wordWeight? h⟩

/-! ## Grammars that say the same -/

section Same

variable (hg : Built g) (hg' : Built g') (hrules : ∀ s, g'.alternatives s = g.alternatives s)
variable (hwords : ∀ c w, g'.wordWeight? c w = g.wordWeight? c w)

include hg hg'

section Rules

include hrules

theorem Built.rules_equiv : g'.rules.Equiv g.rules :=
  .of_forall_constGet?_eq fun s => by rw [hg'.getElem?_rules, hg.getElem?_rules, hrules]

theorem Built.nonterminals_eq : g'.nonterminals = g.nonterminals :=
  (hg.rules_equiv hg' hrules).keys_eq

theorem Built.allRules_eq : g'.allRules = g.allRules := by
  rw [allRules, allRules, (hg.rules_equiv hg' hrules).toList_eq]

end Rules

section Words

include hwords

theorem Built.isCategory_eq (c : String) : g'.isCategory c = g.isCategory c := by
  rw [Bool.eq_iff_iff, hg'.isCategory_iff, hg.isCategory_iff]
  simp only [hwords]

/-- The words of the categories in order, each with its weight, are the same. -/
theorem Built.lexicon_equiv :
    (g'.lexicon.map fun _ ws => ws.toList).Equiv (g.lexicon.map fun _ ws => ws.toList) := by
  refine .of_forall_constGet?_eq fun c => ?_
  have hcategory := hg.isCategory_eq hg' hwords c
  rw [WeightedGrammar.isCategory_eq, WeightedGrammar.isCategory_eq] at hcategory
  rw [Std.TreeMap.getElem?_map, Std.TreeMap.getElem?_map]
  cases hws : g.lexicon[c]? with
  | none =>
    rw [hws] at hcategory
    rw [Option.isNone_iff_eq_none.1 (Option.isSome_eq_false_iff.1 hcategory)]
  | some ws =>
    rw [hws] at hcategory
    obtain ⟨ws', hws'⟩ := Option.isSome_iff_exists.1 hcategory
    rw [hws', Option.map_some, Option.map_some]
    have hequiv : ws'.Equiv ws := .of_forall_constGet?_eq fun w => by
      rw [← wordWeight?_eq hws, ← wordWeight?_eq hws', hwords]
    rw [hequiv.toList_eq]

theorem Built.categories_eq : g'.categories = g.categories := by
  have hkeys := (hg.lexicon_equiv hg' hwords).keys_eq
  rwa [Std.TreeMap.keys_map, Std.TreeMap.keys_map] at hkeys

theorem Built.allWords_eq : g'.allWords = g.allWords := by
  have h (g : WeightedGrammar W) : g.allWords =
      (g.lexicon.map fun _ ws => ws.toList).toList.flatMap fun c =>
        c.2.map fun w => (c.1, w.1, w.2) := by
    rw [Std.TreeMap.toList_map, List.flatMap_map, allWords]
  rw [h, h, (hg.lexicon_equiv hg' hwords).toList_eq]

end Words

end Same

/-- Grammars that say the same are printed the same. -/
theorem Built.text_eq {g g' : WeightedGrammar Float} (hg : Built g) (hg' : Built g')
    (hrules : ∀ s, g'.alternatives s = g.alternatives s)
    (hwords : ∀ c w, g'.wordWeight? c w = g.wordWeight? c w) : g'.text = g.text := by
  rw [text, text, hg.allRules_eq hg' hrules, hg.allWords_eq hg' hwords]

end TabularParsing.WeightedGrammar
