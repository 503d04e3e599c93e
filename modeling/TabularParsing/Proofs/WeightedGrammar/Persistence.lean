import TabularParsing.Proofs.Earley.Soundness
import TabularParsing.Proofs.Json.RoundTrip
import TabularParsing.Proofs.WeightedGrammar.Documents

/-!
# Grammars that are written and read back

A grammar is written as a document with one definition for each symbol, so of a symbol that is a
category and has rules too only the words are written. All else is read back as it was, if the
weights are numbers that are read as they are written.

## Main definitions

* `WeightedGrammar.Built`: grammars to which rules and words were added one by one.
* `Document.rebuilt`: a document with its maps filled anew.

## Main statements

* `Document.ofJson?_toJson`
* `WeightedGrammar.ofJson_json`
-/
namespace TabularParsing

section Rebuild

variable {α β : Type}

/-- A map filled anew, with its values changed by a function. -/
def rebuild (f : α → β) (m : Std.TreeMap String α) : Std.TreeMap String β :=
  m.toList.foldl (fun d e => d.insert e.1 (f e.2)) ∅

@[simp] theorem getElem?_rebuild (f : α → β) (m : Std.TreeMap String α) (s : String) :
    (rebuild f m)[s]? = m[s]?.map f := by
  rw [rebuild, getElem?_foldl_insert m (fun e => f e.2)]
  simp

end Rebuild

/-! ## Documents as JSON -/

namespace Document

variable {α β : Type}

/-- A list is read as it was written if its members are. -/
theorem mapM_items_listOf {f : α → Json} {read? : Json → Option α} {as : List α}
    (h : ∀ a ∈ as, read? (f a) = some a) :
    ((listOf f as).items? >>= fun js => js.mapM read?) = some as := by
  have hread := mapM_map_eq_some (r := fun a => a) h
  rwa [List.map_id'] at hread

theorem fields?_objectOf (f : α → Json) (m : Std.TreeMap String α) :
    (objectOf f m).fields? = some (m.toList.map fun e => (e.1, f e.2)) :=
  mapM_map_eq_some fun _ _ => rfl

/-- An object is read as the map it was written from. -/
theorem mapOf?_objectOf {f : α → Json} {value? : Json → Option β} {r : α → β}
    {m : Std.TreeMap String α}
    (h : ∀ (s : String) (a : α), m[s]? = some a → value? (f a) = some (r a)) :
    mapOf? value? (objectOf f m) = some (rebuild r m) := by
  have hread : (m.toList.map fun e => (e.1, f e.2)).mapM
      (fun e => (value? e.2).map fun a => (e.1, a)) =
      some (m.toList.map fun e => (e.1, r e.2)) := by
    refine mapM_map_eq_some fun e he => ?_
    rw [h _ _ (Std.TreeMap.mem_toList_iff_getElem?_eq_some.1 he)]
    rfl
  simp only [mapOf?, fields?_objectOf, bind, Option.bind_some, hread, rebuild, List.foldl_map]
  rfl

theorem strings?_listOf (ws : List String) : strings? (listOf Json.ofText ws) = some ws :=
  mapM_items_listOf fun _ _ => rfl

theorem printable_listOf {f : α → Json} (h : ∀ a, (f a).Printable) (as : List α) :
    (listOf f as).Printable := by
  refine .array fun j hj => ?_
  obtain ⟨a, -, rfl⟩ := List.mem_map.1 hj
  exact h a

theorem printable_objectOf {f : α → Json} (h : ∀ a, (f a).Printable) (m : Std.TreeMap String α) :
    (objectOf f m).Printable := by
  refine .object (fun field hfield => ?_) fun field hfield => ?_
  all_goals obtain ⟨e, -, rfl⟩ := List.mem_map.1 hfield
  · rfl
  · exact h e.2

/-- A document is read from its text as the value it was printed from. -/
theorem printable_toJson (d : Document Float) : d.toJson.Printable := by
  have hdefinition (e : Definition) : (definitionJson e).Printable := by
    cases e with
    | alternatives rhss => exact printable_listOf (printable_listOf fun s => .string s) rhss
    | words ws => exact printable_listOf (fun s => .string s) ws
  have hweight (w : AlternativeWeight Float) : (weightJson w).Printable := by
    cases w with
    | bare w => exact Json.printable_ofFloat w
    | wrapped ws => exact printable_listOf Json.printable_ofFloat ws
  have hprobabilities (p : Probabilities Float) : (probabilitiesJson p).Printable := by
    cases p with
    | perAlternative ws => exact printable_listOf hweight ws
    | perWord ws => exact printable_objectOf Json.printable_ofFloat ws
  refine .object (by simp) fun field hfield => ?_
  rcases List.mem_pair.1 hfield with rfl | rfl
  · exact printable_objectOf hdefinition d.definitions
  · exact printable_objectOf hprobabilities d.probabilities

/-- A definition is read as it was written, but for an empty list of words. -/
theorem definition?_definitionJson {d : Definition} (h : d ≠ .words []) :
    definition? (definitionJson d) = some d := by
  cases d with
  | alternatives rhss =>
    rw [definition?, definitionJson, mapM_items_listOf fun rhs _ => strings?_listOf rhs]
    rfl
  | words ws =>
    cases ws with
    | nil => exact absurd rfl h
    | cons w ws =>
      rw [definition?, definitionJson, strings?_listOf]
      rfl

end Document

/-! ## Probabilities -/

section Probabilities

variable {W : Type}

/-- All weights satisfy `P`. -/
def AlternativeWeight.All (P : W → Prop) : AlternativeWeight W → Prop
  | bare w => P w
  | wrapped ws => ∀ w ∈ ws, P w

/-- All weights satisfy `P`. -/
def Probabilities.All (P : W → Prop) : Probabilities W → Prop
  | perAlternative ws => ∀ w ∈ ws, w.All P
  | perWord ws => ∀ (word : String) (w : W), ws[word]? = some w → P w

/-- The same weights, with a map of them filled anew. -/
def Probabilities.rebuilt : Probabilities W → Probabilities W
  | perAlternative ws => perAlternative ws
  | perWord ws => perWord (rebuild (fun w => w) ws)

end Probabilities

namespace Document

/-- Numbers that are read as they are written. -/
def Reads (w : Float) : Prop := Json.number? (Json.ofFloat w) = some w

theorem alternativeWeight?_weightJson {w : AlternativeWeight Float} (h : w.All Reads) :
    alternativeWeight? (weightJson w) = some w := by
  cases w with
  | bare w =>
    have hw : Json.number? (Json.ofFloat w) = some w := h
    rw [alternativeWeight?, weightJson, hw]
    rfl
  | wrapped ws =>
    rw [alternativeWeight?, weightJson, numbers?, mapM_items_listOf h]
    rfl

theorem probabilities?_probabilitiesJson {p : Probabilities Float} (h : p.All Reads) :
    probabilities? (probabilitiesJson p) = some p.rebuilt := by
  cases p with
  | perAlternative ws =>
    rw [probabilities?, probabilitiesJson,
      mapM_items_listOf fun w hw => alternativeWeight?_weightJson (h w hw)]
    rfl
  | perWord ws =>
    rw [probabilities?, probabilitiesJson, mapOf?_objectOf h]
    rfl

/-- A document with its maps filled anew. -/
def rebuilt {W : Type} (d : Document W) : Document W :=
  ⟨rebuild (fun e => e) d.definitions, rebuild Probabilities.rebuilt d.probabilities⟩

/-- A document is read as it was written, with its maps filled anew. -/
theorem ofJson?_toJson {d : Document Float}
    (hdefinitions : ∀ (s : String) (e : Definition), d.definitions[s]? = some e → e ≠ .words [])
    (hprobabilities : ∀ (s : String) (p : Probabilities Float), d.probabilities[s]? = some p →
      p.All Reads) :
    ofJson? d.toJson = some d.rebuilt := by
  have hparts : parts? d.toJson = some (objectOf definitionJson d.definitions,
      objectOf probabilitiesJson d.probabilities) := by
    simp [parts?, toJson, Json.fields?, uniqueField?]
  have hd := mapOf?_objectOf (r := fun e => e) fun s e he =>
    definition?_definitionJson (hdefinitions s e he)
  have hp := mapOf?_objectOf fun s p hp => probabilities?_probabilitiesJson (hprobabilities s p hp)
  simp only [ofJson?, hparts, bind, Option.bind_some, hd, hp]
  rfl

variable {W : Type} [Zero W]

theorem alternativeWeights?_rebuilt (ps : Option (Probabilities W)) :
    alternativeWeights? (ps.map Probabilities.rebuilt) = alternativeWeights? ps := by
  rcases ps with _ | (ws | ws) <;> rfl

/-- What a definition says does not change when a map of its probabilities is filled anew. -/
theorem sense_map_rebuilt (s : String) (ps : Option (Probabilities W)) (d : Definition) :
    d.sense s (ps.map Probabilities.rebuilt) = d.sense s ps := by
  cases d with
  | alternatives rhss => rw [Definition.sense, alternativeWeights?_rebuilt]; rfl
  | words listed =>
    rcases ps with _ | (ws | ws)
    · rfl
    · rfl
    · simp [Definition.sense, Probabilities.rebuilt, wordWeights?]

/-- What a document says of a symbol does not change when its maps are filled anew. -/
theorem sense_rebuilt (d : Document W) (s : String) : d.rebuilt.sense s = d.sense s := by
  simp only [sense, rebuilt, getElem?_rebuild, Option.map_id_fun', sense_map_rebuilt]
  rfl

theorem fits_map_rebuilt {ps : Option (Probabilities W)} {d : Definition} (h : d.Fits ps) :
    d.Fits (ps.map Probabilities.rebuilt) := by
  cases d with
  | alternatives rhss => rwa [Definition.Fits, alternativeWeights?_rebuilt]
  | words listed =>
    obtain ⟨ws, hws⟩ := h
    rcases ps with _ | (_ | ws')
    · exact ⟨ws, hws⟩
    · exact ⟨ws, hws⟩
    · exact ⟨_, rfl⟩

/-! ## The document of a grammar -/

omit [Zero W] in
/-- The two maps of a document are filled side by side. -/
theorem foldl_define (definition : String × α → Definition)
    (probabilities : String × α → Probabilities W) (es : List (String × α)) (d : Document W) :
    es.foldl (fun d e => (⟨d.definitions.insert e.1 (definition e),
        d.probabilities.insert e.1 (probabilities e)⟩ : Document W)) d =
      ⟨es.foldl (fun m e => m.insert e.1 (definition e)) d.definitions,
        es.foldl (fun m e => m.insert e.1 (probabilities e)) d.probabilities⟩ := by
  induction es generalizing d with
  | nil => rfl
  | cons e es ih => rw [List.foldl_cons, ih]; rfl

omit [Zero W] in
/-- A symbol is defined by its words if it is a category, else by its alternatives. -/
theorem definitions_ofGrammar (g : WeightedGrammar W) (s : String) :
    (ofGrammar g).definitions[s]? = (g.lexicon[s]?.map fun ws => Definition.words ws.keys).or
      (g.rules[s]?.map fun rs =>
        Definition.alternatives (rs.map fun r => r.productions.map Production.symbol)) := by
  simp only [ofGrammar, foldl_define]
  rw [getElem?_foldl_insert g.lexicon (fun e => Definition.words e.2.keys),
    getElem?_foldl_insert g.rules (fun e =>
      Definition.alternatives (e.2.map fun r => r.productions.map Production.symbol))]
  simp

omit [Zero W] in
theorem probabilities_ofGrammar (g : WeightedGrammar W) (s : String) :
    (ofGrammar g).probabilities[s]? = (g.lexicon[s]?.map Probabilities.perWord).or
      (g.rules[s]?.map fun rs => Probabilities.perAlternative (rs.map fun r => .bare r.weight)) := by
  simp only [ofGrammar, foldl_define]
  rw [getElem?_foldl_insert g.lexicon (fun e => Probabilities.perWord e.2),
    getElem?_foldl_insert g.rules (fun e =>
      Probabilities.perAlternative (e.2.map fun r => .bare r.weight))]
  simp

/-- Classified rules of one symbol are what their spelling and their weights stand for. -/
theorem map_zipIdx_eq {symbol : String} {rs : List (WeightedRule W)}
    (hsymbol : ∀ r ∈ rs, r.symbol = symbol)
    (hclassified : ∀ r ∈ rs, ∀ p ∈ r.productions, p = .ofSymbol p.symbol) :
    ((rs.map fun r => r.productions.map Production.symbol).zipIdx.map fun p =>
      (⟨symbol, p.1.map Production.ofSymbol, (rs.map WeightedRule.weight)[p.2]?.getD 0⟩ :
        WeightedRule W)) = rs := by
  refine List.ext_getElem? fun n => ?_
  rw [List.getElem?_map, List.getElem?_zipIdx, List.getElem?_map]
  cases hr : rs[n]? with
  | none => rfl
  | some r =>
    have hmem := List.mem_of_getElem? hr
    simp [hr, Production.map_ofSymbol (hclassified r hmem), ← hsymbol r hmem]

end Document

namespace WeightedGrammar

/-- Grammars to which rules and words were added one by one. -/
inductive Built {W : Type} : WeightedGrammar W → Prop where
  | empty : Built (.empty standardStart)
  | addSymbols {g g' : WeightedGrammar W} {lhs : String} {symbols : List String} {w : W} :
      Built g → g.addSymbols lhs symbols w = .ok g' → Built g'
  | listWord {g : WeightedGrammar W} (category word : String) (w : W) :
      Built g → Built (g.listWord category word w)

section Built

variable {W : Type} {g : WeightedGrammar W}

theorem Built.classified (h : Built g) : g.Classified := by
  induction h with
  | empty => exact classified_empty _
  | addSymbols _ hadd ih => exact ih.addSymbols hadd
  | listWord category word w _ ih => exact ih.listWord category word w

/-- Every category lists a word. -/
theorem Built.exists_word (h : Built g) {category : String}
    (hcategory : g.isCategory category = true) : ∃ word w, g.wordWeight? category word = some w := by
  induction h with
  | empty => simp [isCategory, WeightedGrammar.empty] at hcategory
  | addSymbols _ hadd ih =>
    obtain ⟨_, rfl⟩ := exists_addFilled_of_addSymbols hadd
    exact ih hcategory
  | @listWord g c v w _ ih =>
    by_cases hc : c = category
    · exact ⟨v, w, by rw [wordWeight?_listWord, if_pos ⟨hc, rfl⟩]⟩
    · rw [isCategory_listWord, Bool.or_eq_true, beq_iff_eq] at hcategory
      obtain ⟨word, x, hx⟩ := ih (hcategory.resolve_left hc)
      exact ⟨word, x, by rw [wordWeight?_listWord, if_neg fun h => hc h.1, hx]⟩

/-- What the document of a grammar keeps: everything but the rules of categories. -/
def kept (g : WeightedGrammar W) (s : String) : Sense W :=
  { g.sense s with alternatives := if g.isCategory s then [] else g.alternatives s }

theorem isCategory_eq (g : WeightedGrammar W) (s : String) :
    g.isCategory s = g.lexicon[s]?.isSome := Std.TreeMap.contains_eq_isSome_getElem?

variable [Zero W]

omit [Zero W] in
theorem wordWeight?_eq {s : String} {ws : Std.TreeMap String W} (h : g.lexicon[s]? = some ws)
    (word : String) : g.wordWeight? s word = ws[word]? := by
  rw [wordWeight?, h]; rfl

omit [Zero W] in
theorem mem_keys_of_getElem? {ws : Std.TreeMap String W} {word : String} {w : W}
    (h : ws[word]? = some w) : word ∈ ws.keys :=
  Std.TreeMap.mem_keys.2 (Std.TreeMap.mem_iff_isSome_getElem?.2 (by rw [h]; rfl))

omit [Zero W] in
theorem alternatives_eq (g : WeightedGrammar W) (s : String) :
    g.alternatives s = g.rules[s]?.getD [] := Std.TreeMap.getD_eq_getD_getElem?

/-- The document of a grammar gives every definition the probabilities that it asks for. -/
theorem fits_ofGrammar {s : String} {e : Definition}
    (he : (Document.ofGrammar g).definitions[s]? = some e) :
    e.Fits (Document.ofGrammar g).probabilities[s]? := by
  rw [Document.definitions_ofGrammar] at he
  rw [Document.probabilities_ofGrammar]
  cases hlexicon : g.lexicon[s]? with
  | some ws =>
    rw [hlexicon] at he
    obtain rfl := Option.some.inj he
    exact ⟨ws, rfl⟩
  | none =>
    rw [hlexicon] at he
    obtain ⟨rs, hrs, rfl⟩ := Option.map_eq_some_iff.1 he
    rw [hrs]
    refine ⟨⟨_, rfl⟩, fun rhs hrhs => ?_⟩
    obtain ⟨r, hr, rfl⟩ := List.mem_map.1 hrhs
    have hfiled := g.filed s r (by rwa [← alternatives, alternatives_eq, hrs])
    simpa using hfiled.2

omit [Zero W] in
/-- No definition of a grammar that was built is an empty list of words. -/
theorem Built.ne_of_definitions (h : Built g) {s : String} {e : Definition}
    (he : (Document.ofGrammar g).definitions[s]? = some e) : e ≠ .words [] := by
  rintro rfl
  rw [Document.definitions_ofGrammar] at he
  cases hlexicon : g.lexicon[s]? with
  | none =>
    rw [hlexicon] at he
    obtain ⟨rs, -, hrs⟩ := Option.map_eq_some_iff.1 he
    cases hrs
  | some ws =>
    rw [hlexicon] at he
    obtain ⟨word, w, hw⟩ := h.exists_word (by rw [isCategory_eq, hlexicon]; rfl)
    rw [wordWeight?_eq hlexicon] at hw
    have hkeys : ws.keys = [] := Definition.words.inj (Option.some.inj he)
    have hmem : word ∈ ws.keys := mem_keys_of_getElem? hw
    rw [hkeys] at hmem
    cases hmem

/-- If the weights of a grammar are read as they are written, those of its document are. -/
theorem reads_ofGrammar {g : WeightedGrammar Float} (h : g.WeightsIn Document.Reads) {s : String}
    {p : Probabilities Float} (hp : (Document.ofGrammar g).probabilities[s]? = some p) :
    p.All Document.Reads := by
  rw [Document.probabilities_ofGrammar] at hp
  cases hlexicon : g.lexicon[s]? with
  | none =>
    rw [hlexicon] at hp
    obtain ⟨rs, hrs, rfl⟩ := Option.map_eq_some_iff.1 hp
    intro w hw
    obtain ⟨r, hr, rfl⟩ := List.mem_map.1 hw
    have hmem : r ∈ g.alternatives s := by rwa [alternatives_eq, hrs]
    exact h.rules hmem
  | some ws =>
    rw [hlexicon] at hp
    obtain rfl := Option.some.inj hp
    exact fun word w hw => h.words ((wordWeight?_eq hlexicon word).trans hw)

/-- The words of a category are read back with their weights. -/
theorem sense_words_keys {s word : String} {w : W} {ws : Std.TreeMap String W}
    (hw : ws[word]? = some w) :
    (Definition.words ws.keys).sense s (some (.perWord ws)) = ⟨[], true, fun v => ws[v]?⟩ := by
  have hne : ws.keys.isEmpty = false :=
    List.isEmpty_eq_false_iff.2 (List.ne_nil_of_mem (mem_keys_of_getElem? hw))
  ext1
  · rfl
  · simp only [Definition.sense, hne, Bool.not_false]
  · funext v
    simp only [Definition.sense, Document.wordWeights?, Option.getD_some, Std.TreeMap.mem_keys,
      Std.TreeMap.mem_iff_isSome_getElem?]
    cases ws[v]? <;> rfl

/-- The alternatives of a symbol are read back with their weights. -/
theorem Built.sense_alternatives (h : Built g) {s : String} {rs : List (WeightedRule W)}
    (hrs : g.rules[s]? = some rs) :
    (Definition.alternatives (rs.map fun r => r.productions.map Production.symbol)).sense s
      (some (.perAlternative (rs.map fun r => .bare r.weight))) = ⟨rs, false, fun _ => none⟩ := by
  have halternatives : g.alternatives s = rs := by rw [alternatives_eq, hrs, Option.getD_some]
  have hsymbol : ∀ r ∈ rs, r.symbol = s :=
    fun r hr => (g.filed s r (by rwa [← alternatives, halternatives])).1
  have hclassified : ∀ r ∈ rs, ∀ p ∈ r.productions, p = .ofSymbol p.symbol :=
    fun r hr => h.classified r (by rwa [halternatives])
  have hweights : (rs.map fun r => AlternativeWeight.bare r.weight).map AlternativeWeight.value =
      rs.map WeightedRule.weight := by rw [List.map_map]; rfl
  simp only [Definition.sense, Document.alternativeWeights?, hweights, Option.getD_some,
    Document.map_zipIdx_eq hsymbol hclassified]

/-- The document of a grammar that was built says of every symbol what it keeps. -/
theorem Built.sense_ofGrammar (h : Built g) (s : String) :
    (Document.ofGrammar g).sense s = g.kept s := by
  rw [Document.sense, Document.definitions_ofGrammar, Document.probabilities_ofGrammar]
  cases hlexicon : g.lexicon[s]? with
  | some ws =>
    have hcategory : g.isCategory s = true := by rw [isCategory_eq, hlexicon]; rfl
    have hweight : g.wordWeight? s = fun word => ws[word]? := funext (wordWeight?_eq hlexicon)
    obtain ⟨word, w, hw⟩ := h.exists_word hcategory
    rw [hweight] at hw
    simp only [Option.map_some, Option.some_or, Option.getD_some, sense_words_keys hw, kept, sense,
      hcategory, hweight, if_true]
  | none =>
    have hcategory : g.isCategory s = false := by rw [isCategory_eq, hlexicon]; rfl
    have hweight : g.wordWeight? s = fun _ => none := by
      funext word
      rw [wordWeight?, hlexicon]; rfl
    cases hrules : g.rules[s]? with
    | none => simp [kept, sense, hcategory, hweight, alternatives_eq, hrules, Sense.none]
    | some rs => simp [kept, sense, hcategory, hweight, alternatives_eq, hrules,
        h.sense_alternatives hrules]

end Built

/-- What is read back says of every symbol what the document keeps of it. -/
theorem exists_ofJson_json {g : WeightedGrammar Float} (h : Built g)
    (hnumbers : g.WeightsIn Document.Reads) :
    ∃ g', ofJson g.json = .ok g' ∧ g'.start = standardStart ∧ ∀ s, g'.sense s = g.kept s := by
  have hread : Json.read? g.json.toList = some (Document.ofGrammar g).toJson :=
    Json.read?_print (Document.printable_toJson _)
  have hdocument : Document.ofJson? (Document.ofGrammar g).toJson =
      some (Document.ofGrammar g).rebuilt :=
    Document.ofJson?_toJson (fun _ _ he => h.ne_of_definitions he)
      fun _ _ hp => reads_ofGrammar hnumbers hp
  have hfits {s : String} {e : Definition}
      (he : (Document.ofGrammar g).rebuilt.definitions[s]? = some e) :
      e.Fits (Document.ofGrammar g).rebuilt.probabilities[s]? := by
    simp only [Document.rebuilt, getElem?_rebuild, Option.map_id_fun', id] at he ⊢
    exact Document.fits_map_rebuilt (fits_ofGrammar he)
  obtain ⟨g', hg', hstart, hsense⟩ := Document.toGrammar_ok standardStart hfits
  refine ⟨g', ?_, hstart, fun s => ?_⟩
  · simp only [ofJson, hread, bind, Option.bind_some, hdocument, hg']
  · rw [hsense, Document.sense_rebuilt, h.sense_ofGrammar]

/-- A grammar to which rules and words were added one by one is written and read back without
fault. What is read back has the same start symbol, and of every symbol the same words with the same
weights; it has the same alternatives in the same order with the same weights, but for a symbol
that is a category, which has none. So a grammar in which no category has rules is read back as it
was. -/
theorem ofJson_json {g : WeightedGrammar Float} (h : Built g)
    (hnumbers : g.WeightsIn Document.Reads) :
    ∃ g', ofJson g.json = .ok g' ∧ g'.start = standardStart ∧
      (∀ s, g'.alternatives s = if g.isCategory s then [] else g.alternatives s) ∧
      (∀ s, g'.isCategory s = g.isCategory s ∧
        ∀ word, g'.wordWeight? s word = g.wordWeight? s word) ∧
      ((∀ s, g.isCategory s = true → g.alternatives s = []) →
        ∀ s, g'.alternatives s = g.alternatives s) := by
  obtain ⟨g', hg', hstart, hkept⟩ := exists_ofJson_json h hnumbers
  have halternatives (s : String) :
      g'.alternatives s = if g.isCategory s then [] else g.alternatives s :=
    congrArg Sense.alternatives (hkept s)
  refine ⟨g', hg', hstart, halternatives, fun s => ⟨?_, fun word => ?_⟩, fun hrules s => ?_⟩
  · exact congrArg Sense.isCategory (hkept s)
  · exact congrFun (congrArg Sense.wordWeight? (hkept s)) word
  · rw [halternatives]
    split
    · rename_i hcategory
      exact (hrules s hcategory).symm
    · rfl

/-- `S -> b` with half the weight, and the word `c` in a category. -/
def ruleAndWord (category : String) : WeightedGrammar Float :=
  ((empty standardStart).addFilled ⟨"S", [.terminal "b"], 0.5⟩ (by simp)).listWord category "c" 1

theorem built_ruleAndWord (category : String) : Built (ruleAndWord category) := by
  have hadd : (empty standardStart).addSymbols "S" ["b"] 0.5 =
      .ok ((empty standardStart).addFilled (⟨"S", [.terminal "b"], 0.5⟩ : WeightedRule Float)
        (by simp)) := rfl
  exact (Built.empty.addSymbols hadd).listWord category "c" 1

theorem alternatives_ruleAndWord (category s : String) :
    (ruleAndWord category).alternatives s =
      if "S" = s then [⟨"S", [.terminal "b"], 0.5⟩] else [] := by
  simp [ruleAndWord, alternatives_addFilled]

theorem isCategory_ruleAndWord (category s : String) :
    (ruleAndWord category).isCategory s = (category == s) := by
  rw [ruleAndWord, isCategory_listWord]
  simp [isCategory, addFilled, WeightedGrammar.empty]

theorem weightsIn_ruleAndWord (category : String) :
    (ruleAndWord category).WeightsIn Document.Reads := by
  have hhalf : Document.Reads 0.5 := by unfold Document.Reads; decide +kernel
  have hone : Document.Reads 1 := by unfold Document.Reads; decide +kernel
  exact ((weightsIn_empty _).addFilled _ hhalf).listWord _ _ hone

/-- With the word in a category of its own nothing is lost. -/
theorem ofJson_json_ruleAndWord :
    Built (ruleAndWord "b") ∧ (ruleAndWord "b").WeightsIn Document.Reads ∧
      ∃ g', ofJson (ruleAndWord "b").json = .ok g' ∧
        (∀ s, g'.alternatives s = (ruleAndWord "b").alternatives s) ∧
        ∀ s word, g'.wordWeight? s word = (ruleAndWord "b").wordWeight? s word := by
  refine ⟨built_ruleAndWord "b", weightsIn_ruleAndWord "b", ?_⟩
  obtain ⟨g', hg', -, -, hwords, halternatives⟩ :=
    ofJson_json (built_ruleAndWord "b") (weightsIn_ruleAndWord "b")
  refine ⟨g', hg', halternatives fun s hs => ?_, fun s => (hwords s).2⟩
  rw [isCategory_ruleAndWord, beq_iff_eq] at hs
  subst hs
  simp [alternatives_ruleAndWord]

/-- With the word under the symbol of the rule, the rule is lost. -/
theorem ofJson_json_ne_sharedSymbol :
    Built (ruleAndWord "S") ∧ (ruleAndWord "S").WeightsIn Document.Reads ∧
      ∃ g', ofJson (ruleAndWord "S").json = .ok g' ∧
        g'.alternatives "S" ≠ (ruleAndWord "S").alternatives "S" := by
  refine ⟨built_ruleAndWord "S", weightsIn_ruleAndWord "S", ?_⟩
  obtain ⟨g', hg', -, hkept⟩ :=
    exists_ofJson_json (built_ruleAndWord "S") (weightsIn_ruleAndWord "S")
  have hlost : g'.alternatives "S" = [] := by
    have halternatives : (g'.sense "S").alternatives = [] := by
      rw [hkept, kept, isCategory_ruleAndWord]
      rfl
    exact halternatives
  exact ⟨g', hg', by simp [hlost, alternatives_ruleAndWord]⟩

end WeightedGrammar

end TabularParsing
