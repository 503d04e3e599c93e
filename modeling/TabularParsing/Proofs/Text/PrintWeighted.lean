import TabularParsing.Proofs.Decimal.Plain
import TabularParsing.Proofs.Earley.Universe
import TabularParsing.Proofs.Text.Printed
import TabularParsing.Proofs.WeightedGrammar.Sources

/-!
# Weighted grammars that are printed and read back

Every rule and every word is printed on a line of its own with its weight at the end, the rules
first. What is read back says of every symbol what the grammar says of it, if the weights are
numbers that are read as they are printed.

## Main definitions

* `Format.WeightedEntry.text`: the line of an entry.
* `WeightedGrammar.entries`: the entries in the order in which they are printed.

## Main statements

* `WeightedGrammar.addEntries_entries`: adding the entries of a grammar one by one.
* `WeightedGrammar.says_same_ofText_text`: printing and reading back.
-/
namespace TabularParsing

/-! ## One entry -/

namespace Format

namespace WeightedEntry

/-- The line of an entry. -/
def text (e : WeightedEntry) : String :=
  Entry.text ⟨e.lhs, e.symbols ++ [Decimal.plain e.weight]⟩

/-- An entry that can be told from its line, up to its weight. -/
structure Printable (e : WeightedEntry) : Prop where
  entry : Entry.Printable ⟨e.lhs, e.symbols⟩
  symbols_ne_nil : e.symbols ≠ []
  inUnit : InUnit e.weight

variable {e : WeightedEntry}

theorem Printable.line (h : e.Printable) :
    Entry.Printable ⟨e.lhs, e.symbols ++ [Decimal.plain e.weight]⟩ :=
  h.entry.concat (Decimal.isWord_plain _) (Decimal.not_mentions_plain _)

end WeightedEntry

theorem readProbability_eq {token : String} {p : Float} (hread : Decimal.read? token = some p)
    (hp : InUnit p) : readProbability token = .ok p := by
  rw [readProbability, hread]
  exact if_pos hp

theorem splitLast_concat (symbols : List String) (token : String) :
    splitLast (symbols ++ [token]) = some (symbols, token) := by
  simp [splitLast]

theorem subset_of_splitLast {tokens symbols : List String} {token : String}
    (h : splitLast tokens = some (symbols, token)) : symbols ⊆ tokens := by
  obtain ⟨t, -, h⟩ := Option.map_eq_some_iff.1 h
  obtain ⟨rfl, -⟩ := Prod.mk.inj h
  exact List.dropLast_subset _

theorem splitWeight_concat {symbols : List String} {token : String} {p : Float}
    (hread : Decimal.read? token = some p) (hp : InUnit p) :
    splitWeight (symbols ++ [token]) = .ok (symbols, p) := by
  simp [splitWeight, splitLast_concat, hread, readProbability_eq hread hp, Except.map]

/-- An entry is read back if its weight is read as it is printed. -/
theorem readWeighted_text {e : WeightedEntry} (h : e.Printable)
    (hweight : Decimal.read? (Decimal.plain e.weight) = some e.weight) :
    readWeighted e.text.toList = .ok e := by
  rw [readWeighted, WeightedEntry.text, h.line.readEntry_text]
  simp only [bind, Except.bind, splitWeight_concat hweight h.inUnit]
  exact if_neg (by simpa using h.symbols_ne_nil)

/-- The symbols are tokens of the line. -/
theorem subset_of_splitWeight {tokens symbols : List String} {p : Float}
    (h : splitWeight tokens = .ok (symbols, p)) : symbols ⊆ tokens := by
  unfold splitWeight at h
  split at h
  · obtain ⟨rfl, -⟩ := Prod.mk.inj (Except.ok.inj h)
    exact List.nil_subset _
  · rename_i before token hlast
    split at h
    · cases hread : readProbability token with
      | error f => rw [hread] at h; cases h
      | ok q =>
        rw [hread] at h
        obtain ⟨rfl, -⟩ := Prod.mk.inj (Except.ok.inj h)
        exact subset_of_splitLast hlast
    · obtain ⟨rfl, -⟩ := Prod.mk.inj (Except.ok.inj h)
      exact List.Subset.refl _

theorem printable_of_readWeighted {line : List Char} {e : WeightedEntry}
    (h : readWeighted line = .ok e) (hcomment : ¬ Text.Mentions '/' '/' line) : e.Printable := by
  have hunit := inUnit_of_readWeighted h
  obtain ⟨entry, hentry, h⟩ := exists_of_bind_ok h
  obtain ⟨⟨symbols, p⟩, hsplit, h⟩ := exists_of_bind_ok h
  have hprintable := printable_of_readEntry hentry hcomment
  have hsubset := subset_of_splitWeight hsplit
  cases symbols with
  | nil => cases h
  | cons s symbols =>
    obtain rfl := Except.ok.inj h
    exact ⟨hprintable.of_subset hsubset, List.cons_ne_nil _ _, hunit⟩

end Format

namespace WeightedRule

/-- The entry of a rule. -/
def entry (r : WeightedRule Float) : Format.WeightedEntry :=
  ⟨r.symbol, r.productions.map Production.symbol, r.weight⟩

/-- The rule of an entry, its symbols told apart by their first letters. -/
def ofEntry (e : Format.WeightedEntry) : WeightedRule Float :=
  ⟨e.lhs, e.symbols.map Production.ofSymbol, e.weight⟩

theorem entry_ofEntry (e : Format.WeightedEntry) : (ofEntry e).entry = e := by
  have hsymbols : (e.symbols.map Production.ofSymbol).map Production.symbol = e.symbols := by
    rw [List.map_map]
    exact (List.map_congr_left fun s _ => Production.symbol_ofSymbol s).trans (List.map_id _)
  rw [entry, ofEntry, hsymbols]

theorem ofEntry_entry {r : WeightedRule Float}
    (h : ∀ p ∈ r.productions, p = .ofSymbol p.symbol) : ofEntry r.entry = r := by
  rw [ofEntry, entry, Production.map_ofSymbol h]

theorem text_entry (r : WeightedRule Float) :
    r.entry.text = r.text ++ " " ++ Decimal.plain r.weight := by
  rw [Format.WeightedEntry.text, Format.Entry.text, entry, List.foldl_append, List.foldl_map, text]
  rfl

end WeightedRule

namespace WeightedGrammar

open Format (WeightedEntry)

/-- The entry of a word. -/
def wordEntry (w : String × String × Float) : WeightedEntry := ⟨w.1, [w.2.1], w.2.2⟩

theorem text_wordEntry (w : String × String × Float) :
    (wordEntry w).text = w.1 ++ " -> " ++ w.2.1 ++ " " ++ Decimal.plain w.2.2 := by
  rw [← String.toList_inj]
  simp [wordEntry, WeightedEntry.text, Format.Entry.toList_text, Text.spaced]

/-- The entries in the order in which they are printed. -/
def entries (g : WeightedGrammar Float) : List WeightedEntry :=
  g.allRules.map WeightedRule.entry ++ g.allWords.map wordEntry

theorem text_eq_join (g : WeightedGrammar Float) :
    g.text = String.join (g.entries.map fun e => e.text ++ "\n") := by
  rw [← String.toList_inj]
  simp [text, entries, String.toList_join, List.flatMap_map, WeightedRule.text_entry,
    text_wordEntry, String.append_assoc]

/-! ## What is read can be printed -/

/-- All that a grammar says can be told from its text. -/
structure Printable (g : WeightedGrammar Float) : Prop where
  rule : ∀ {s : String}, ∀ r ∈ g.alternatives s,
    Text.startsUppercase r.symbol = true ∧ r.entry.Printable
  word : ∀ {c w : String} {p : Float}, g.wordWeight? c w = some p →
    Text.startsUppercase c = false ∧ (wordEntry (c, w, p)).Printable

theorem printable_of_ofText {text : String} {g : WeightedGrammar Float} (h : ofText text = .ok g) :
    g.Printable := by
  refine ofText_induction_lines (P := Printable) ?_ ?_ h
  · refine ⟨fun r hr => ?_, fun h => ?_⟩
    · simp at hr
    · simp [wordWeight?, empty] at h
  · intro g g' line n e hg hread hcomment hadd
    have he := Format.printable_of_readWeighted hread hcomment
    rcases addEntry_cases hadd with ⟨hupper, hadd⟩ | ⟨hlower, word, hword, rfl⟩
    · obtain ⟨hne, rfl⟩ := exists_addFilled_of_addSymbols hadd
      refine ⟨fun {s} r hr => ?_, hg.word⟩
      rw [alternatives_addFilled] at hr
      rcases List.mem_append.1 hr with hr | hr
      · exact hg.rule r hr
      · split at hr
        · obtain rfl := List.mem_singleton.1 hr
          exact ⟨hupper, (WeightedRule.entry_ofEntry e).symm ▸ he⟩
        · cases hr
    · refine ⟨hg.rule, fun {c w p} hw => ?_⟩
      rw [wordWeight?_listWord] at hw
      split at hw
      · rename_i h
        obtain ⟨rfl, rfl⟩ := h
        obtain rfl := Option.some.inj hw
        rw [wordEntry, ← hword]
        exact ⟨hlower, he⟩
      · exact hg.word hw

/-! ## Adding the entries again -/

/-- The rules of a symbol stand together. -/
theorem filter_allRules {W : Type} (g : WeightedGrammar W) (s : String) :
    g.allRules.filter (fun r => r.symbol == s) = g.alternatives s := by
  have hother : ∀ es : List (String × List (WeightedRule W)), (∀ e ∈ es, e ∈ g.rules.toList) →
      (∀ e ∈ es, e.1 ≠ s) → (es.flatMap Prod.snd).filter (fun r => r.symbol == s) = [] := by
    intro es hes hne
    refine List.filter_eq_nil_iff.2 fun r hr => ?_
    obtain ⟨e, he, hr⟩ := List.mem_flatMap.1 hr
    have hrs := Std.TreeMap.mem_toList_iff_getElem?_eq_some.1 (hes e he)
    have hsymbol := (g.filed e.1 r (by rw [← alternatives, alternatives_eq, hrs]; exact hr)).1
    simpa [hsymbol] using hne e he
  rw [alternatives_eq]
  cases hrs : g.rules[s]? with
  | none => exact hother _ (fun _ he => he) (fst_ne_of_getElem?_eq_none hrs)
  | some rs =>
    obtain ⟨before, after, hsplit, hbefore, hafter⟩ := exists_split_of_getElem? hrs
    have hown : rs.filter (fun r => r.symbol == s) = rs := by
      refine List.filter_eq_self.2 fun r hr => ?_
      have hfiled := (g.filed s r (by rw [← alternatives, alternatives_eq, hrs]; exact hr)).1
      simpa using hfiled
    rw [allRules, hsplit, List.flatMap_append, List.flatMap_cons, List.filter_append,
      List.filter_append, hown,
      hother before (fun e he => by rw [hsplit]; exact List.mem_append_left _ he) hbefore,
      hother after (fun e he => by
        rw [hsplit]; exact List.mem_append_right _ (List.mem_cons_of_mem _ he)) hafter]
    simp

/-- Entries with the numbers of their lines, added one by one. -/
def addEntries (g : WeightedGrammar Float) (n : Nat) (es : List WeightedEntry) :
    Except FormatError (WeightedGrammar Float) :=
  ((es.zipIdx n).map Prod.swap).foldlM (fun g e => g.addEntry e.1 e.2) g

theorem addEntries_cons {g g' : WeightedGrammar Float} {n : Nat} {e : WeightedEntry}
    (h : g.addEntry n e = .ok g') (es : List WeightedEntry) :
    g.addEntries n (e :: es) = g'.addEntries (n + 1) es := by
  rw [addEntries, List.zipIdx_cons, List.map_cons, List.foldlM_cons]
  exact congrArg (· >>= _) h

theorem addEntries_append {g g' : WeightedGrammar Float} {n : Nat} {es : List WeightedEntry}
    (h : g.addEntries n es = .ok g') (es' : List WeightedEntry) :
    g.addEntries n (es ++ es') = g'.addEntries (n + es.length) es' := by
  rw [addEntries, List.zipIdx_append, List.map_append, List.foldlM_append]
  exact congrArg (· >>= _) h

theorem addEntry_entry {r : WeightedRule Float} (hupper : Text.startsUppercase r.symbol = true)
    (hne : r.productions ≠ []) (hclassified : ∀ p ∈ r.productions, p = .ofSymbol p.symbol)
    (n : Nat) (g : WeightedGrammar Float) : g.addEntry n r.entry = .ok (g.addFilled r hne) := by
  have hadd : g.addSymbols r.entry.lhs r.entry.symbols r.entry.weight =
      .ok (g.addFilled r hne) := by
    change g.addAlternative (WeightedRule.ofEntry r.entry) = _
    rw [WeightedRule.ofEntry_entry hclassified]
    exact dif_neg hne
  have hlhs : Text.startsUppercase r.entry.lhs = true := hupper
  rw [addEntry, if_pos hlhs, hadd]
  rfl

theorem addEntry_wordEntry {w : String × String × Float}
    (hlower : Text.startsUppercase w.1 = false) (n : Nat) (g : WeightedGrammar Float) :
    g.addEntry n (wordEntry w) = .ok (g.listWord w.1 w.2.1 w.2.2) := by
  have hlhs : ¬ Text.startsUppercase (wordEntry w).lhs = true := by simp [wordEntry, hlower]
  rw [addEntry, if_neg hlhs]
  rfl

/-- Rules are added behind those of their symbols. -/
theorem addEntries_rules {rs : List (WeightedRule Float)}
    (hrs : ∀ r ∈ rs, Text.startsUppercase r.symbol = true ∧ r.productions ≠ [] ∧
      ∀ p ∈ r.productions, p = .ofSymbol p.symbol) (n : Nat) (g : WeightedGrammar Float) :
    ∃ g', g.addEntries n (rs.map WeightedRule.entry) = .ok g' ∧ g'.start = g.start ∧
      g'.lexicon = g.lexicon ∧
      ∀ s, g'.alternatives s = g.alternatives s ++ rs.filter fun r => r.symbol == s := by
  induction rs generalizing g n with
  | nil => exact ⟨g, rfl, rfl, rfl, by simp⟩
  | cons r rs ih =>
    obtain ⟨⟨hupper, hne, hclassified⟩, hrs⟩ := List.forall_mem_cons.1 hrs
    obtain ⟨g', hg', hstart, hlexicon, halternatives⟩ := ih hrs (n + 1) (g.addFilled r hne)
    refine ⟨g', ?_, hstart, hlexicon, fun s => ?_⟩
    · rw [List.map_cons, addEntries_cons (addEntry_entry hupper hne hclassified n g), hg']
    · rw [halternatives, alternatives_addFilled, List.append_assoc, List.filter_cons]
      by_cases hs : r.symbol = s <;> simp [hs]

/-- Words are listed with the weights that another grammar gives them. -/
theorem addEntries_words {said : String → String → Option Float}
    {ws : List (String × String × Float)}
    (hws : ∀ w ∈ ws, Text.startsUppercase w.1 = false ∧ said w.1 w.2.1 = some w.2.2) (n : Nat)
    (g : WeightedGrammar Float) :
    ∃ g', g.addEntries n (ws.map wordEntry) = .ok g' ∧ g'.start = g.start ∧ g'.rules = g.rules ∧
      (∀ c w p, (c, w, p) ∈ ws → g'.wordWeight? c w = some p) ∧
      ∀ c w, (∀ p, (c, w, p) ∉ ws) → g'.wordWeight? c w = g.wordWeight? c w := by
  induction ws generalizing g n with
  | nil => exact ⟨g, rfl, rfl, rfl, by simp⟩
  | cons v ws ih =>
    obtain ⟨⟨hlower, hsaid⟩, hws⟩ := List.forall_mem_cons.1 hws
    obtain ⟨g', hg', hstart, hrules, hlisted, hother⟩ := ih hws (n + 1) (g.listWord v.1 v.2.1 v.2.2)
    refine ⟨g', ?_, hstart, hrules, fun c w p hw => ?_, fun c w hw => ?_⟩
    · rw [List.map_cons, addEntries_cons (addEntry_wordEntry hlower n g), hg']
    · by_cases hlater : ∃ q, (c, w, q) ∈ ws
      · obtain ⟨q, hq⟩ := hlater
        have hp : said c w = some p := by
          rcases List.mem_cons.1 hw with rfl | hw
          · exact hsaid
          · exact (hws _ hw).2
        rw [hlisted c w q hq, ← (hws _ hq).2, hp]
      · obtain rfl : (c, w, p) = v := (List.mem_cons.1 hw).resolve_right fun h => hlater ⟨p, h⟩
        rw [hother c w fun q hq => hlater ⟨q, hq⟩, wordWeight?_listWord, if_pos ⟨rfl, rfl⟩]
    · rw [hother c w fun p hp => hw p (List.mem_cons_of_mem _ hp), wordWeight?_listWord, if_neg]
      rintro ⟨rfl, rfl⟩
      exact hw _ List.mem_cons_self

/-- The entries of a grammar that was built say what the grammar says. -/
theorem addEntries_entries {g : WeightedGrammar Float} (hg : g.Printable)
    (hclassified : g.Classified) :
    ∃ g', (empty standardStart).addEntries 1 g.entries = .ok g' ∧ g'.start = standardStart ∧
      (∀ s, g'.alternatives s = g.alternatives s) ∧
      ∀ c w, g'.wordWeight? c w = g.wordWeight? c w := by
  have hrs : ∀ r ∈ g.allRules, Text.startsUppercase r.symbol = true ∧ r.productions ≠ [] ∧
      ∀ p ∈ r.productions, p = .ofSymbol p.symbol := by
    intro r hr
    obtain ⟨s, hr⟩ := mem_allRules_iff.1 hr
    exact ⟨(hg.rule r hr).1, (g.filed s r hr).2, hclassified r hr⟩
  have hws : ∀ w ∈ g.allWords, Text.startsUppercase w.1 = false ∧
      g.wordWeight? w.1 w.2.1 = some w.2.2 := by
    rintro ⟨c, w, p⟩ hw
    have hw := mem_allWords_iff.1 hw
    exact ⟨(hg.word hw).1, hw⟩
  obtain ⟨g₁, hg₁, hstart₁, hlexicon, halternatives⟩ :=
    addEntries_rules hrs 1 (empty standardStart)
  obtain ⟨g', hg', hstart, hrules, hlisted, hother⟩ :=
    addEntries_words hws (1 + (g.allRules.map WeightedRule.entry).length) g₁
  refine ⟨g', ?_, hstart.trans hstart₁, fun s => ?_, fun c w => ?_⟩
  · rw [entries, addEntries_append hg₁, hg']
  · have hs : g'.alternatives s = g₁.alternatives s := by rw [alternatives, hrules]; rfl
    rw [hs, halternatives, alternatives_empty, List.nil_append, filter_allRules]
  · cases hw : g.wordWeight? c w with
    | some p => exact hlisted c w p (mem_allWords_iff.2 hw)
    | none =>
      have hunlisted : ∀ p, (c, w, p) ∉ g.allWords := fun p hp =>
        Option.some_ne_none p ((mem_allWords_iff.1 hp).symm.trans hw)
      rw [hother c w hunlisted, wordWeight?, hlexicon]
      simp [WeightedGrammar.empty]

/-- The entries are read as they are printed. -/
theorem readWeightedRules_text {g : WeightedGrammar Float} (hg : g.Printable)
    (hnumbers : g.WeightsIn fun w => Decimal.read? (Decimal.plain w) = some w) :
    Format.readWeightedRules g.text = .ok ((g.entries.zipIdx 1).map Prod.swap) := by
  have hentries : ∀ e ∈ g.entries, e.Printable ∧
      Decimal.read? (Decimal.plain e.weight) = some e.weight := by
    intro e he
    rcases List.mem_append.1 he with he | he
    · obtain ⟨r, hr, rfl⟩ := List.mem_map.1 he
      obtain ⟨s, hr⟩ := mem_allRules_iff.1 hr
      exact ⟨(hg.rule r hr).2, hnumbers.rules hr⟩
    · obtain ⟨⟨c, w, p⟩, hw, rfl⟩ := List.mem_map.1 he
      have hw := mem_allWords_iff.1 hw
      exact ⟨(hg.word hw).2, hnumbers.words hw⟩
  rw [text_eq_join]
  exact Format.readLines_join (fun e he => (hentries e he).1.line.isContent) fun e he =>
    Format.readWeighted_text (hentries e he).1 (hentries e he).2

/-- A grammar that is read from text is printed and read back without fault, if its weights are
numbers that are read as they are printed. What is read back has the same start symbol, every symbol
has the same alternatives in the same order, with the same weights and the same productions, the
categories are the same and list the same words with the same weights; and it is printed in the same
way. -/
theorem says_same_ofText_text {text : String} {g : WeightedGrammar Float} (h : ofText text = .ok g)
    (hnumbers : g.WeightsIn fun w => Decimal.read? (Decimal.plain w) = some w) :
    ∃ g', ofText g.text = .ok g' ∧ g'.start = g.start ∧ g'.nonterminals = g.nonterminals ∧
      (∀ s, g'.alternatives s = g.alternatives s) ∧ g'.categories = g.categories ∧
      (∀ c w, g'.wordWeight? c w = g.wordWeight? c w) ∧ g'.text = g.text := by
  have hbuilt := built_of_ofText h
  have hprintable := printable_of_ofText h
  obtain ⟨g', hg', hstart, hrules, hwords⟩ :=
    addEntries_entries hprintable hbuilt.classified
  have hfilled : g'.rules.isEmpty = false := by
    obtain ⟨s, hs⟩ := hbuilt.exists_alternatives (isEmpty_rules_of_ofText h)
    exact isEmpty_rules_of_alternatives (hrules s ▸ hs)
  have hread : ofText g.text = .ok g' := by
    rw [ofText, readWeightedRules_text hprintable hnumbers]
    change ((empty standardStart).addEntries 1 g.entries >>= fun g =>
      if g.rules.isEmpty then .error FormatFault.emptyGrammar.unplaced else .ok g) = .ok g'
    rw [hg']
    exact if_neg (by simp [hfilled])
  have hbuilt' := built_of_ofText hread
  exact ⟨g', hread, hstart.trans (start_of_ofText h).symm,
    hbuilt.nonterminals_eq hbuilt' hrules, hrules, hbuilt.categories_eq hbuilt' hwords, hwords,
    hbuilt.text_eq hbuilt' hrules hwords⟩

/-- Symbols that look like numbers and arrows, a comment, and weights that are left out. -/
theorem says_same_ofText_text_lookalikes :
    ∃ g, ofText "S -> a Noun 0.4 // or\nS -> 0.5 0.6\nNoun -> n -> -\nn -> dog 0.5\nn -> cat" =
      .ok g ∧ (g.WeightsIn fun w => Decimal.read? (Decimal.plain w) = some w) ∧
      ∃ g', ofText g.text = .ok g' ∧ (∀ s, g'.alternatives s = g.alternatives s) ∧
        (∀ c w, g'.wordWeight? c w = g.wordWeight? c w) ∧ g'.text = g.text := by
  have hrun : ((ofText
      "S -> a Noun 0.4 // or\nS -> 0.5 0.6\nNoun -> n -> -\nn -> dog 0.5\nn -> cat").toOption.any
        fun g => g.entries.all fun e => Decimal.read? (Decimal.plain e.weight) = some e.weight) =
      true := by decide +kernel
  simp only [Option.any_eq_true, toOption_eq_some_iff, List.all_eq_true, decide_eq_true_eq] at hrun
  obtain ⟨g, hg, hentries⟩ := hrun
  have hnumbers : g.WeightsIn fun w => Decimal.read? (Decimal.plain w) = some w := by
    refine ⟨fun {s r} hr => ?_, fun {c w p} hw => ?_⟩
    · exact hentries r.entry (List.mem_append_left _
        (List.mem_map.2 ⟨r, mem_allRules_iff.2 ⟨s, hr⟩, rfl⟩))
    · exact hentries (wordEntry (c, w, p)) (List.mem_append_right _
        (List.mem_map.2 ⟨_, mem_allWords_iff.2 hw, rfl⟩))
  obtain ⟨g', hg', -, -, hrules, -, hwords, htext⟩ := says_same_ofText_text hg hnumbers
  exact ⟨g, hg, hnumbers, g', hg', hrules, hwords, htext⟩

end WeightedGrammar

end TabularParsing
