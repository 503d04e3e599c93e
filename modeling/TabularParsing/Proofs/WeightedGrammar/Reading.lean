import TabularParsing.Proofs.Json.RoundTrip
import TabularParsing.Proofs.WeightedGrammar.Outcome

/-!
# Documents are read exactly

A text that spells a document is read as what that document describes. Whether a single weight is
wrapped in a list makes no difference.

## Main definition

* `Json.Rewraps`: documents that differ in how single weights are wrapped.

## Main statement

* `WeightedGrammar.ofJson_exact`
-/
namespace TabularParsing

variable {W : Type}

namespace Json

/-- A number may stand alone or in a list of its own. -/
inductive RewrapsWeight : Json → Json → Prop where
  | same (j : Json) : RewrapsWeight j j
  | wrap (literal : List Char) : RewrapsWeight (.number literal) (.array [.number literal])
  | unwrap (literal : List Char) : RewrapsWeight (.array [.number literal]) (.number literal)

/-- Weights may be wrapped where they are listed. -/
inductive RewrapsProbabilities : Json → Json → Prop where
  | same (j : Json) : RewrapsProbabilities j j
  | list {ws ws' : List Json} : List.Forall₂ RewrapsWeight ws ws' →
      RewrapsProbabilities (.array ws) (.array ws')

/-- Two documents with the same definitions, and the same probabilities of the same symbols but for
the wrapping of single weights. -/
def Rewraps (j j' : Json) : Prop :=
  ∃ definitions fields fields', HasParts definitions (.object fields) j ∧
    HasParts definitions (.object fields') j' ∧
    List.Forall₂ (fun f f' => f.1 = f'.1 ∧ RewrapsProbabilities f.2 f'.2) fields fields'

end Json

/-- The same probabilities with no weight wrapped. -/
def Probabilities.unwrapped [Zero W] : Probabilities W → Probabilities W
  | perAlternative ws => perAlternative (ws.map fun w => .bare w.value)
  | perWord ws => perWord ws

namespace Document

section Unwrapped

variable [Zero W] {d d' : Document W}

theorem alternativeWeights?_unwrapped (ps : Option (Probabilities W)) :
    alternativeWeights? (ps.map Probabilities.unwrapped) = alternativeWeights? ps := by
  rcases ps with _ | (ws | ws)
  case some.perAlternative =>
    refine congrArg some ?_
    rw [List.map_map]
    rfl
  all_goals rfl

theorem wordWeights?_unwrapped (ps : Option (Probabilities W)) :
    wordWeights? (ps.map Probabilities.unwrapped) = wordWeights? ps := by
  rcases ps with _ | ((_ | _) | ws) <;> rfl

/-- Only the values of weights count. -/
theorem toGrammar_eq_of_unwrapped (hd : d'.definitions = d.definitions)
    (hp : ∀ s : String, d'.probabilities[s]?.map Probabilities.unwrapped =
      d.probabilities[s]?.map Probabilities.unwrapped) (start : String) :
    d'.toGrammar start = d.toGrammar start := by
  have hadd (g : WeightedGrammar W) (s : String) (e : Definition) :
      addDefinition g s d'.probabilities[s]? e = addDefinition g s d.probabilities[s]? e := by
    cases e with
    | alternatives rhss =>
      simp only [addDefinition, ← alternativeWeights?_unwrapped d'.probabilities[s]?, hp,
        alternativeWeights?_unwrapped]
    | words words =>
      simp only [addDefinition, ← wordWeights?_unwrapped d'.probabilities[s]?, hp,
        wordWeights?_unwrapped]
  simp only [toGrammar, hd, hadd]

end Unwrapped

open Json

theorem exists_alternativeWeight? {j j' : Json} {w : AlternativeWeight Float}
    (h : RewrapsWeight j j') (hread : alternativeWeight? j = some w) :
    ∃ w', alternativeWeight? j' = some w' ∧ w'.value = w.value := by
  cases h with
  | same => exact ⟨w, hread, rfl⟩
  | wrap literal =>
    obtain ⟨x, hx, rfl⟩ : ∃ x, valueOf? literal = some x ∧ .bare x = w := by
      simpa [alternativeWeight?, number?, numbers?, items?] using hread
    exact ⟨.wrapped [x], by simp [alternativeWeight?, number?, numbers?, items?, hx], rfl⟩
  | unwrap literal =>
    obtain ⟨x, hx, rfl⟩ : ∃ x, valueOf? literal = some x ∧ .wrapped [x] = w := by
      simpa [alternativeWeight?, number?, numbers?, items?, Option.bind_eq_some_iff] using hread
    exact ⟨.bare x, by simp [alternativeWeight?, number?, hx], rfl⟩

theorem exists_probabilities? {j j' : Json} {p : Probabilities Float}
    (h : RewrapsProbabilities j j') (hread : probabilities? j = some p) :
    ∃ p', probabilities? j' = some p' ∧ p'.unwrapped = p.unwrapped := by
  cases h with
  | same => exact ⟨p, hread, rfl⟩
  | @list items items' hitems =>
    obtain ⟨ws, hws, rfl⟩ : ∃ ws, items.mapM alternativeWeight? = some ws ∧
        .perAlternative ws = p := by
      simpa [probabilities?, items?, mapOf?, fields?] using hread
    obtain ⟨ws', hws', hvalues⟩ :=
      exists_mapM_of_forall₂ hitems (fun h hw => exists_alternativeWeight? h hw) hws
    refine ⟨.perAlternative ws', by simp [probabilities?, items?, hws'], ?_⟩
    refine congrArg Probabilities.perAlternative (map_eq_of_forall₂ (hvalues.flip.imp ?_))
    exact fun w' w hw => congrArg AlternativeWeight.bare hw

/-- Fields are read one by one, so their map is the same but for the wrapping of weights. -/
theorem exists_mapOf?_probabilities? {fields fields' : List (Option String × Json)}
    {m : Std.TreeMap String (Probabilities Float)}
    (h : List.Forall₂ (fun f f' => f.1 = f'.1 ∧ RewrapsProbabilities f.2 f'.2) fields fields')
    (hread : mapOf? probabilities? (.object fields) = some m) :
    ∃ m', mapOf? probabilities? (.object fields') = some m' ∧
      ∀ s : String, m'[s]?.map Probabilities.unwrapped = m[s]?.map Probabilities.unwrapped := by
  obtain ⟨named, hnamed, hread⟩ := Option.bind_eq_some_iff.1 hread
  obtain ⟨entries, hentries, hread⟩ := Option.bind_eq_some_iff.1 hread
  obtain rfl := Option.some.inj hread
  have hkey {f f' : Option String × Json} {y : String × Json}
      (hf : f.1 = f'.1 ∧ RewrapsProbabilities f.2 f'.2)
      (hy : f.1.map (fun k => (k, f.2)) = some y) :
      ∃ y', f'.1.map (fun k => (k, f'.2)) = some y' ∧
        (y.1 = y'.1 ∧ RewrapsProbabilities y.2 y'.2) := by
    obtain ⟨k, hk, rfl⟩ := Option.map_eq_some_iff.1 hy
    exact ⟨(k, f'.2), by rw [← hf.1, hk]; rfl, rfl, hf.2⟩
  obtain ⟨named', hnamed', hfields⟩ := exists_mapM_of_forall₂ h hkey hnamed
  have hvalue {f f' : String × Json} {e : String × Probabilities Float}
      (hf : f.1 = f'.1 ∧ RewrapsProbabilities f.2 f'.2)
      (he : (probabilities? f.2).map (fun p => (f.1, p)) = some e) :
      ∃ e', (probabilities? f'.2).map (fun p => (f'.1, p)) = some e' ∧
        (e.1, e.2.unwrapped) = (e'.1, e'.2.unwrapped) := by
    obtain ⟨p, hp, rfl⟩ := Option.map_eq_some_iff.1 he
    obtain ⟨p', hp', hunwrapped⟩ := exists_probabilities? hf.2 hp
    exact ⟨(f'.1, p'), by rw [hp']; rfl, Prod.ext hf.1 hunwrapped.symm⟩
  obtain ⟨entries', hentries', halike⟩ := exists_mapM_of_forall₂ hfields hvalue hentries
  refine ⟨entries'.foldl (fun m e => m.insert e.1 e.2) ∅, ?_, fun s => ?_⟩
  · have hfields' : (Json.object fields').fields? = some named' := hnamed'
    simp only [mapOf?, hfields', hentries', bind, Option.bind_some]
    rfl
  · simp only [getElem?_foldl_insert_empty, ← lastValue?_map, map_eq_of_forall₂ halike]

/-- A document is read as the same grammar however single weights are wrapped. -/
theorem exists_ofJson?_of_rewraps {j j' : Json} {d : Document Float} (h : j.Rewraps j')
    (hread : ofJson? j = some d) :
    ∃ d', ofJson? j' = some d' ∧ ∀ start, d'.toGrammar start = d.toGrammar start := by
  obtain ⟨definitions, fields, fields', hparts, hparts', hfields⟩ := h
  simp only [ofJson?, parts?_eq_some_iff.2 hparts, bind, Option.bind_some] at hread
  obtain ⟨ds, hds, hread⟩ := Option.bind_eq_some_iff.1 hread
  obtain ⟨ps, hps, hread⟩ := Option.bind_eq_some_iff.1 hread
  obtain rfl := Option.some.inj hread
  obtain ⟨ps', hps', hunwrapped⟩ := exists_mapOf?_probabilities? hfields hps
  refine ⟨⟨ds, ps'⟩, ?_, toGrammar_eq_of_unwrapped rfl hunwrapped⟩
  simp only [ofJson?, parts?_eq_some_iff.2 hparts', bind, Option.bind_some, hds, hps']
  rfl

end Document

namespace WeightedGrammar

/-- A text that spells a document is read as what the document describes, or refused for its first
fault, and whether single weights are wrapped makes no difference. -/
theorem ofJson_exact {text : String} {j : Json} {d : Document Float}
    (hread : Json.read? text.toList = some j) (hd : d.SpelledBy j) :
    d.ReadAs (ofJson text) ∧ ∀ (text' : String) (j' : Json),
      Json.read? text'.toList = some j' → j.Rewraps j' → ofJson text' = ofJson text := by
  obtain ⟨d', hd', halike⟩ := Document.decodes.complete hd
  have htext : ofJson text = d'.toGrammar standardStart := by
    simp only [ofJson, hread, bind, Option.bind_some, hd']
  refine ⟨halike.readAs (Document.readAs_toGrammar htext), ?_⟩
  intro text' j' hread' hrewraps
  obtain ⟨d'', hd'', hsame⟩ := Document.exists_ofJson?_of_rewraps hrewraps hd'
  rw [htext, ← hsame]
  simp only [ofJson, hread', bind, Option.bind_some, hd'']

/-- An alternative and a word have no weight, and a symbol that has weights is not defined. -/
def lopsidedFields (weight : Json) : List (String × Json) :=
  [("S", .array [weight]), ("N", .object [(some "it", .number ['0', '.', '5'])]), ("P", .array [])]

/-- The two parts of a document with such weights. -/
def lopsidedParts (weight : Json) : List (String × Json) :=
  [("define_rules", .object
      [(some "S", .array [.array [.string (some "N"), .string (some "is")],
        .array [.string (some "N")]]),
       (some "N", .array [.string (some "it"), .string (some "he")])]),
    ("probabilities", .object ((lopsidedFields weight).map fun f => (some f.1, f.2)))]

def lopsided (weight : Json) : Json :=
  .object ((lopsidedParts weight).map fun f => (some f.1, f.2))

theorem literal_half : Json.Literal ['0', '.', '5'] := by
  have hwhole : Json.IsWhole ['0'] :=
    ⟨by simp [Decimal.AllDigits, Decimal.isDigit], by simp, by simp⟩
  have hfraction : Json.IsFraction ['.', '5'] :=
    .inr ⟨['5'], rfl, by simp [Decimal.AllDigits, Decimal.isDigit], by simp⟩
  exact .positive (.intro hwhole hfraction (.inl rfl))

theorem printable_lopsided {weight : Json} (h : weight.Printable) :
    (lopsided weight).Printable := by
  grind [lopsided, lopsidedParts, lopsidedFields, Json.Printable, literal_half]

/-- A weight is wrapped in the first document and not in the second. -/
theorem ofJson_exact_lopsided :
    let wrapped := lopsided (.array [.number ['0', '.', '5']])
    let bare := lopsided (.number ['0', '.', '5'])
    Json.read? wrapped.print.toList = some wrapped ∧ Json.read? bare.print.toList = some bare ∧
      wrapped.Rewraps bare ∧
      ∃ d : Document Float, d.SpelledBy wrapped ∧ d.ReadAs (ofJson wrapped.print) ∧
        ofJson bare.print = ofJson wrapped.print := by
  intro wrapped bare
  have hhalf : (Json.number ['0', '.', '5']).Printable := .number literal_half
  have hlist : (Json.array [.number ['0', '.', '5']]).Printable := .array (by simpa using hhalf)
  have hread : Json.read? wrapped.print.toList = some wrapped :=
    Json.read?_print (printable_lopsided hlist)
  have hread' : Json.read? bare.print.toList = some bare :=
    Json.read?_print (printable_lopsided hhalf)
  have hrewraps : wrapped.Rewraps bare := by
    refine ⟨_, _, _, .object rfl rfl, .object rfl rfl, .cons ⟨rfl, .list ?_⟩ ?_⟩
    · exact .cons (.unwrap _) .nil
    · exact .cons ⟨rfl, .same _⟩ (.cons ⟨rfl, .same _⟩ .nil)
  have hsome : (Document.ofJson? wrapped).isSome = true := by decide +kernel
  obtain ⟨d, hd⟩ := Option.isSome_iff_exists.1 hsome
  have hspelled : d.SpelledBy wrapped := Document.decodes.sound hd
  obtain ⟨hexact, hsame⟩ := ofJson_exact hread hspelled
  exact ⟨hread, hread', hrewraps, d, hspelled, hexact, hsame _ _ hread' hrewraps⟩

end WeightedGrammar

end TabularParsing
