import TabularParsing.Proofs.Entries
import TabularParsing.Proofs.Fallible
import TabularParsing.WeightedGrammar.Document

/-!
# The grammar of a document

Symbols are defined one by one, and what a document says of a symbol depends on no other symbol:
the grammar has the alternatives and the words that its definition spells, with the weights that
its probabilities give them.

## Main definitions

* `Sense`: all that a grammar says of a symbol.
* `Definition.Fits`: probabilities that can be read together with a definition.
* `Definition.sense`, `Document.sense`: what a definition, and a document, says of a symbol.

## Main statement

* `Document.toGrammar_ok`
-/
namespace TabularParsing

/-- What is said of a symbol: its alternatives, whether it is a category, and the weights of its
words. -/
@[ext] structure Sense (W : Type) where
  alternatives : List (WeightedRule W)
  isCategory : Bool
  wordWeight? : String → Option W

/-- Nothing is said. -/
def Sense.none {W : Type} : Sense W := ⟨[], false, fun _ => Option.none⟩

variable {W : Type} {g : WeightedGrammar W} {symbol s : String}

namespace WeightedGrammar

def sense (g : WeightedGrammar W) (s : String) : Sense W :=
  ⟨g.alternatives s, g.isCategory s, g.wordWeight? s⟩

theorem sense_empty (start : String) : (empty start : WeightedGrammar W).sense s = .none := by
  simp [sense, Sense.none, isCategory, wordWeight?, empty, funext_iff, alternatives]

end WeightedGrammar

variable [Zero W] {ps : Option (Probabilities W)} {d : Definition}

namespace Definition

/-- Probabilities of the kind that a definition asks for, and no alternative is empty. -/
def Fits (ps : Option (Probabilities W)) : Definition → Prop
  | alternatives rhss =>
    (∃ ws, Document.alternativeWeights? ps = some ws) ∧ ∀ rhs ∈ rhss, rhs ≠ []
  | words _ => ∃ ws, Document.wordWeights? ps = some ws

/-- What a definition says of its symbol. An alternative has the weight at its place, a word its
own, and what has none weighs zero. -/
def sense (symbol : String) (ps : Option (Probabilities W)) : Definition → Sense W
  | alternatives rhss =>
    let ws := (Document.alternativeWeights? ps).getD []
    ⟨rhss.zipIdx.map fun p => ⟨symbol, p.1.map Production.ofSymbol, ws[p.2]?.getD 0⟩, false,
      fun _ => none⟩
  | words listed =>
    let ws := (Document.wordWeights? ps).getD ∅
    ⟨[], !listed.isEmpty, fun word => if word ∈ listed then some (ws[word]?.getD 0) else none⟩

end Definition

namespace Document

/-- What a document says of a symbol. -/
def sense (d : Document W) (s : String) : Sense W :=
  (d.definitions[s]?.map fun e => e.sense s d.probabilities[s]?).getD .none

/-! ## One symbol -/

omit [Zero W] in
/-- Rules are added behind those of their symbol. -/
theorem foldlM_addSymbols (symbol : String) (weight : Nat → W) {rhss : List (List String × Nat)}
    (hne : ∀ p ∈ rhss, p.1 ≠ []) (g : WeightedGrammar W) :
    ∃ g', rhss.foldlM (fun g p => g.addSymbols symbol p.1 (weight p.2)) g = .ok g' ∧
      g'.start = g.start ∧ g'.lexicon = g.lexicon ∧
      ∀ s, g'.alternatives s = g.alternatives s ++ if symbol = s then
        rhss.map fun p => ⟨symbol, p.1.map Production.ofSymbol, weight p.2⟩ else [] := by
  induction rhss generalizing g with
  | nil => exact ⟨g, rfl, rfl, rfl, by simp⟩
  | cons p rhss ih =>
    have hp : p.1.map Production.ofSymbol ≠ [] := by
      simpa using hne p List.mem_cons_self
    obtain ⟨g', hfold, hstart, hlexicon, halternatives⟩ :=
      ih (fun q hq => hne q (List.mem_cons_of_mem _ hq))
        (g.addFilled ⟨symbol, p.1.map Production.ofSymbol, weight p.2⟩ hp)
    refine ⟨g', ?_, hstart, hlexicon, fun s => ?_⟩
    · have hadd : g.addSymbols symbol p.1 (weight p.2) = .ok (g.addFilled _ hp) := dif_neg hp
      rw [List.foldlM_cons, hadd]
      exact hfold
    · rw [halternatives, WeightedGrammar.alternatives_addFilled, List.append_assoc]
      split <;> rfl

omit [Zero W] in
/-- Words are listed in their category. -/
theorem foldl_listWord (category : String) (weight : String → W) (words : List String)
    (g : WeightedGrammar W) :
    ∃ g', words.foldl (fun g w => g.listWord category w (weight w)) g = g' ∧
      g'.start = g.start ∧ g'.rules = g.rules ∧
      (∀ s, g'.isCategory s = (category == s && !words.isEmpty || g.isCategory s)) ∧
      ∀ s word, g'.wordWeight? s word =
        if category = s ∧ word ∈ words then some (weight word) else g.wordWeight? s word := by
  induction words generalizing g with
  | nil => simp
  | cons w words ih =>
    obtain ⟨g', hfold, hstart, hrules, hcategory, hweight⟩ := ih (g.listWord category w (weight w))
    refine ⟨g', hfold, hstart, hrules, fun s => ?_, fun s word => ?_⟩
    · rw [hcategory, WeightedGrammar.isCategory_listWord]
      cases category == s <;> simp
    · rw [hweight, WeightedGrammar.wordWeight?_listWord]
      by_cases hw : w = word
      · subst hw
        by_cases hs : category = s <;> simp [hs]
      · have hmem : word ∈ w :: words ↔ word ∈ words := by simp [Ne.symm hw]
        simp [hw, hmem]

/-- A definition whose probabilities fit says what it says of its symbol, if nothing was said of
that before, and nothing of any other symbol. -/
theorem addDefinition_ok (hfits : d.Fits ps) (hnone : g.sense symbol = .none) :
    ∃ g', addDefinition g symbol ps d = .ok g' ∧ g'.start = g.start ∧
      g'.sense symbol = d.sense symbol ps ∧ ∀ s, symbol ≠ s → g'.sense s = g.sense s := by
  have halternatives : g.alternatives symbol = [] := congrArg Sense.alternatives hnone
  have hcategory : g.isCategory symbol = false := congrArg Sense.isCategory hnone
  have hword (word : String) : g.wordWeight? symbol word = none :=
    congrFun (congrArg Sense.wordWeight? hnone) word
  cases d with
  | alternatives rhss =>
    obtain ⟨⟨ws, hws⟩, hne⟩ := hfits
    obtain ⟨g', hfold, hstart, hlexicon, hadded⟩ :=
      foldlM_addSymbols symbol (fun n => ws[n]?.getD 0)
        (fun p hp => hne _ (List.fst_mem_of_mem_zipIdx hp)) g
    have hkept (s : String) : g'.isCategory s = g.isCategory s ∧
        g'.wordWeight? s = g.wordWeight? s := by
      simp only [WeightedGrammar.isCategory, hlexicon, funext_iff, WeightedGrammar.wordWeight?,
        implies_true, and_self]
    refine ⟨g', ?_, hstart, ?_, fun s hs => ?_⟩
    · simp only [addDefinition, hws]
      exact hfold
    · ext1
      · simp [WeightedGrammar.sense, Definition.sense, hadded, halternatives, hws]
      · exact (hkept symbol).1.trans hcategory
      · exact (hkept symbol).2.trans (funext hword)
    · simp only [WeightedGrammar.sense, hadded, if_neg hs, List.append_nil, hkept]
  | words words =>
    obtain ⟨ws, hws⟩ := hfits
    obtain ⟨g', hfold, hstart, hrules, hlisted, hweight⟩ :=
      foldl_listWord symbol (fun w => ws[w]?.getD 0) words g
    have hkept (s : String) : g'.alternatives s = g.alternatives s := by
      simp only [WeightedGrammar.alternatives, hrules]
    refine ⟨g', ?_, hstart, ?_, fun s hs => ?_⟩
    · simp only [addDefinition, hws]
      exact congrArg Except.ok hfold
    · ext1
      · exact (hkept symbol).trans halternatives
      · simp [WeightedGrammar.sense, Definition.sense, hlisted, hcategory]
      · funext word
        simp [WeightedGrammar.sense, Definition.sense, hweight, hword, hws]
    · ext1
      · exact hkept s
      · simp [WeightedGrammar.sense, hlisted, hs]
      · funext word
        simp [WeightedGrammar.sense, hweight, hs]

/-! ## All symbols -/

/-- Definitions of other symbols do not matter for what is said of a symbol. -/
theorem foldlM_addDefinition_ok {es : List (String × Definition)}
    {probabilities : String → Option (Probabilities W)}
    (hfits : ∀ e ∈ es, e.2.Fits (probabilities e.1))
    (hdistinct : es.Pairwise fun e e' => e.1 ≠ e'.1)
    (hnone : ∀ e ∈ es, g.sense e.1 = .none) :
    ∃ g', es.foldlM (fun g e => addDefinition g e.1 (probabilities e.1) e.2) g = .ok g' ∧
      g'.start = g.start ∧ (∀ e ∈ es, g'.sense e.1 = e.2.sense e.1 (probabilities e.1)) ∧
      ∀ s, (∀ e ∈ es, e.1 ≠ s) → g'.sense s = g.sense s := by
  induction es generalizing g with
  | nil => exact ⟨g, rfl, rfl, fun _ he => absurd he List.not_mem_nil, fun _ _ => rfl⟩
  | cons e es ih =>
    obtain ⟨hfirst, hrest⟩ := List.pairwise_cons.1 hdistinct
    obtain ⟨g₁, hadd, hstart₁, hsense₁, hother₁⟩ :=
      addDefinition_ok (hfits e List.mem_cons_self) (hnone e List.mem_cons_self)
    obtain ⟨g', hfold, hstart, hsense, hother⟩ :=
      ih (fun e' he' => hfits e' (List.mem_cons_of_mem _ he')) hrest fun e' he' => by
        rw [hother₁ _ (hfirst e' he')]
        exact hnone e' (List.mem_cons_of_mem _ he')
    refine ⟨g', ?_, hstart.trans hstart₁, fun e' he' => ?_, fun s hs => ?_⟩
    · rw [List.foldlM_cons, hadd]
      exact hfold
    · rcases List.mem_cons.1 he' with rfl | he'
      · rw [hother _ fun e'' he'' => (hfirst e'' he'').symm, hsense₁]
      · exact hsense e' he'
    · rw [hother s fun e' he' => hs e' (List.mem_cons_of_mem _ he'),
        hother₁ s (hs e List.mem_cons_self)]

/-- A document whose probabilities fit its definitions has a grammar, which says of every symbol
what the document says. -/
theorem toGrammar_ok {d : Document W} (start : String)
    (hfits : ∀ {s : String} {e : Definition}, d.definitions[s]? = some e →
      e.Fits d.probabilities[s]?) :
    ∃ g, d.toGrammar start = .ok g ∧ g.start = start ∧ ∀ s, g.sense s = d.sense s := by
  have hdistinct : d.definitions.toList.Pairwise fun e e' => e.1 ≠ e'.1 := by
    refine Std.TreeMap.distinct_keys_toList.imp fun hne heq => hne ?_
    exact Std.LawfulEqCmp.compare_eq_iff_eq.2 heq
  obtain ⟨g, hfold, hstart, hsense, hother⟩ := @foldlM_addDefinition_ok W (.empty start) _
    d.definitions.toList (fun s => d.probabilities[s]?)
    (fun e he => hfits (Std.TreeMap.mem_toList_iff_getElem?_eq_some.1 he)) hdistinct
    fun e _ => WeightedGrammar.sense_empty start
  refine ⟨g, hfold, hstart, fun s => ?_⟩
  cases hs : d.definitions[s]? with
  | none =>
    rw [hother s (fst_ne_of_getElem?_eq_none hs), WeightedGrammar.sense_empty, sense, hs]
    rfl
  | some e =>
    have hmem := Std.TreeMap.mem_toList_iff_getElem?_eq_some.2 hs
    rw [hsense _ hmem, sense, hs]
    rfl

end Document

end TabularParsing
