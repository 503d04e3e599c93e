import Mathlib.Data.Finset.Max
import Mathlib.Data.String.Basic
import TabularParsing.Proofs.WeightedGrammar.Shapes
import TabularParsing.Proofs.WeightedGrammar.Sources

/-!
# What comes of a document

A document is refused for the fault of one of its definitions, of the first of them in the order of
their symbols. Without a fault its grammar has the alternatives and words that are defined, with the
weights that are given for them, and nothing else.

## Main definitions

* `Definition.FaultyWith`, `Document.Faulty`: what is wrong with a definition and its
  probabilities.
* `Document.Describes`: what the grammar of a document is.
* `Document.ReadAs`: what comes of a document.

## Main statements

* `Document.toGrammar_error`: the first fault is reported.
* `Document.readAs_toGrammar`
-/
namespace TabularParsing

variable {W : Type}

/-! ## Faults -/

/-- Alternatives do not go with weights of words, words not with a list of weights unless it is
empty, and no alternative may be empty. -/
inductive Definition.FaultyWith (symbol : String) :
    Option (Probabilities W) → Definition → FormatFault → Prop where
  | wordWeights (rhss : List (List String)) (ws : Std.TreeMap String W) :
      FaultyWith symbol (some (.perWord ws)) (.alternatives rhss) (.mismatch symbol)
  | listedWeights (words : List String) {ws : List (AlternativeWeight W)} :
      ws ≠ [] → FaultyWith symbol (some (.perAlternative ws)) (.words words) (.mismatch symbol)
  | emptyAlternative {ps : Option (Probabilities W)} {rhss : List (List String)} :
      (∀ ws, ps ≠ some (.perWord ws)) → [] ∈ rhss →
      FaultyWith symbol ps (.alternatives rhss) .emptyRhs

namespace Document

def Faulty (d : Document W) (s : String) (f : FormatFault) : Prop :=
  ∃ e, d.definitions[s]? = some e ∧ e.FaultyWith s d.probabilities[s]? f

variable [Zero W] {d : Document W} {e : Definition} {s : String} {f : FormatFault}
variable {ps : Option (Probabilities W)}

theorem exists_fault_of_not_fits (s : String) (h : ¬ e.Fits ps) : ∃ f, e.FaultyWith s ps f := by
  cases e with
  | alternatives rhss =>
    rcases ps with _ | (ws | ws)
    case some.perWord => exact ⟨_, .wordWeights rhss ws⟩
    all_goals
      have hempty : [] ∈ rhss := by
        by_contra hmem
        exact h ⟨⟨_, rfl⟩, fun rhs hrhs hnil => hmem (hnil ▸ hrhs)⟩
      exact ⟨_, .emptyAlternative (by simp) hempty⟩
  | words words =>
    rcases ps with _ | ((_ | ⟨w, ws⟩) | ws)
    case some.perAlternative.cons => exact ⟨_, .listedWeights words (List.cons_ne_nil w ws)⟩
    all_goals exact absurd ⟨_, rfl⟩ h

omit [Zero W] in
/-- An empty alternative is refused wherever it stands. -/
theorem foldlM_addSymbols_error (symbol : String) (weight : Nat → W)
    {rhss : List (List String × Nat)} (h : [] ∈ rhss.map Prod.fst) (g : WeightedGrammar W) :
    rhss.foldlM (fun g p => g.addSymbols symbol p.1 (weight p.2)) g =
      .error FormatFault.emptyRhs.unplaced := by
  induction rhss generalizing g with
  | nil => cases h
  | cons p rhss ih =>
    rw [List.foldlM_cons, WeightedGrammar.addSymbols, WeightedGrammar.addAlternative]
    split
    case isTrue => rfl
    case isFalse hp =>
      have hne : p.1 ≠ [] := by simpa using hp
      rw [List.map_cons, List.mem_cons] at h
      exact ih (h.resolve_left hne.symm) _

theorem addDefinition_error (h : e.FaultyWith s ps f) (g : WeightedGrammar W) :
    addDefinition g s ps e = .error f.unplaced := by
  cases h with
  | wordWeights => rfl
  | @listedWeights words ws hws =>
    obtain ⟨w, ws, rfl⟩ := List.exists_cons_of_ne_nil hws
    rfl
  | @emptyAlternative _ rhss hps hrhss =>
    have hmem : [] ∈ rhss.zipIdx.map Prod.fst := by rwa [List.zipIdx_map_fst]
    have hweights : ∃ ws, alternativeWeights? ps = some ws := by
      rcases ps with _ | (ws | ws)
      case some.perWord => exact absurd rfl (hps ws)
      all_goals exact ⟨_, rfl⟩
    obtain ⟨ws, hws⟩ := hweights
    simp only [addDefinition, hws]
    exact foldlM_addSymbols_error s (fun n => ws[n]?.getD 0) hmem g

omit [Zero W] in
/-- If any definition is faulty, there is a first one. -/
theorem exists_first_fault (h : ∃ s f, d.Faulty s f) :
    ∃ s f, d.Faulty s f ∧ ∀ t f', d.Faulty t f' → s ≤ t := by
  classical
  have hkeys {t : String} {f : FormatFault} (ht : d.Faulty t f) : t ∈ d.definitions.keys := by
    obtain ⟨e, he, -⟩ := ht
    exact Std.TreeMap.mem_keys.2 (Std.TreeMap.mem_iff_isSome_getElem?.2 (by rw [he]; rfl))
  have hmem {t : String} : t ∈ d.definitions.keys.toFinset.filter (fun t => ∃ f, d.Faulty t f) ↔
      ∃ f, d.Faulty t f := by
    rw [Finset.mem_filter, List.mem_toFinset]
    exact ⟨And.right, fun ⟨f, ht⟩ => ⟨hkeys ht, f, ht⟩⟩
  obtain ⟨s, f, hs⟩ := h
  obtain ⟨first, hfirst, hle⟩ := Finset.exists_min_image _ id ⟨s, hmem.2 ⟨f, hs⟩⟩
  obtain ⟨f, hf⟩ := hmem.1 hfirst
  exact ⟨first, f, hf, fun t f' ht => hle t (hmem.2 ⟨f', ht⟩)⟩

/-- The definitions before the first faulty one are added, the fault is reported. -/
theorem toGrammar_error (h : d.Faulty s f) (hfirst : ∀ t f', d.Faulty t f' → s ≤ t)
    (start : String) : d.toGrammar start = .error f.unplaced := by
  obtain ⟨e, he, hfault⟩ := h
  obtain ⟨before, after, hsplit, -, -⟩ := exists_split_of_getElem? he
  have hsorted : d.definitions.toList.Pairwise fun e e' => e.1 < e'.1 :=
    Std.TreeMap.ordered_keys_toList.imp compare_lt_iff_lt.1
  rw [hsplit, List.pairwise_append] at hsorted
  obtain ⟨hbefore, -, hlt⟩ := hsorted
  have hfits : ∀ e' ∈ before, e'.2.Fits d.probabilities[e'.1]? := by
    intro e' he'
    by_contra hnot
    obtain ⟨f', hf'⟩ := exists_fault_of_not_fits e'.1 hnot
    have hmem : e' ∈ d.definitions.toList := by
      rw [hsplit]
      exact List.mem_append_left _ he'
    have hle := hfirst e'.1 f' ⟨_, Std.TreeMap.mem_toList_iff_getElem?_eq_some.1 hmem, hf'⟩
    exact absurd (hlt e' he' _ List.mem_cons_self) (not_lt_of_ge hle)
  obtain ⟨g, hfold, -⟩ := @foldlM_addDefinition_ok W (.empty start) _ before
    (fun s => d.probabilities[s]?) hfits (hbefore.imp ne_of_lt)
    fun e' _ => WeightedGrammar.sense_empty start
  have hadd : addDefinition g s d.probabilities[s]? e = .error f.unplaced :=
    addDefinition_error hfault g
  simp only [toGrammar, hsplit, List.foldlM_append, hfold, List.foldlM_cons, bind, Except.bind,
    hadd]

/-! ## The grammar without faults -/

/-- The weight of the alternative at a place: the number that stands there, the first of a list of
them, or zero. -/
def alternativeWeight (d : Document W) (s : String) (place : Nat) : W :=
  match d.probabilities[s]? with
  | some (.perAlternative ws) =>
    match ws[place]? with
    | some (.bare w) => w
    | some (.wrapped (w :: _)) => w
    | some (.wrapped []) => 0
    | none => 0
  | some (.perWord _) => 0
  | none => 0

/-- The weight that is given for a word, or zero. -/
def wordWeight (d : Document W) (s word : String) : W :=
  match d.probabilities[s]? with
  | some (.perWord ws) => ws[word]?.getD 0
  | some (.perAlternative _) => 0
  | none => 0

/-- A grammar has what a document defines and nothing else. -/
structure Describes (d : Document W) (g : WeightedGrammar W) : Prop where
  start_eq : g.start = "S"
  /-- The alternatives of a symbol are those of its definition in their order, their symbols told
  apart by their first letters. -/
  alternatives_eq {s : String} {rhss : List (List String)} :
    d.definitions[s]? = some (.alternatives rhss) →
    g.alternatives s = rhss.zipIdx.map fun p =>
      ⟨s, p.1.map Production.ofSymbol, d.alternativeWeight s p.2⟩
  /-- What is not defined by alternatives has none. -/
  mem_nonterminals (s : String) : s ∈ g.nonterminals ↔
    ∃ rhss, d.definitions[s]? = some (.alternatives rhss) ∧ rhss ≠ []
  isCategory_iff (s : String) : g.isCategory s = true ↔
    ∃ words, d.definitions[s]? = some (.words words) ∧ words ≠ []
  /-- A category has the words of its definition, with their weights. -/
  wordWeight?_iff (s word : String) (w : W) : g.wordWeight? s word = some w ↔
    ∃ words, d.definitions[s]? = some (.words words) ∧ word ∈ words ∧ w = d.wordWeight s word

theorem getD_alternativeWeights? {ws : List W}
    (h : alternativeWeights? d.probabilities[s]? = some ws) (place : Nat) :
    ws[place]?.getD 0 = d.alternativeWeight s place := by
  unfold alternativeWeight
  generalize d.probabilities[s]? = ps at h ⊢
  rcases ps with _ | (listed | byWord)
  · obtain rfl := Option.some.inj h
    rfl
  · obtain rfl := Option.some.inj h
    rw [List.getElem?_map]
    dsimp only
    rcases listed[place]? with _ | (w | _ | ⟨w, _⟩) <;> rfl
  · cases h

theorem getD_wordWeights? {ws : Std.TreeMap String W}
    (h : wordWeights? d.probabilities[s]? = some ws) (word : String) :
    ws[word]?.getD 0 = d.wordWeight s word := by
  unfold wordWeight
  generalize d.probabilities[s]? = ps at h ⊢
  rcases ps with _ | ((_ | _) | byWord)
  case some.perAlternative.cons => cases h
  all_goals obtain rfl := Option.some.inj h
  case some.perWord => rfl
  all_goals simp

/-- What the definitions of a document say is what its grammar has. -/
theorem describes_of_sense {g : WeightedGrammar W} (hbuilt : g.Built) (hstart : g.start = "S")
    (hfits : ∀ {s : String} {e : Definition}, d.definitions[s]? = some e →
      e.Fits d.probabilities[s]?)
    (hsense : ∀ s, g.sense s = d.sense s) : d.Describes g := by
  have halternatives (s : String) : g.alternatives s = (d.sense s).alternatives :=
    congrArg Sense.alternatives (hsense s)
  have hcategory (s : String) : g.isCategory s = (d.sense s).isCategory :=
    congrArg Sense.isCategory (hsense s)
  have hword (s word : String) : g.wordWeight? s word = (d.sense s).wordWeight? word :=
    congrFun (congrArg Sense.wordWeight? (hsense s)) word
  constructor
  case start_eq => exact hstart
  case alternatives_eq =>
    intro s rhss hs
    obtain ⟨⟨ws, hws⟩, -⟩ := hfits hs
    rw [halternatives, sense, hs]
    simp only [Option.map_some, Option.getD_some, Definition.sense, hws,
      getD_alternativeWeights? hws]
  case mem_nonterminals =>
    intro s
    have hne : s ∈ g.nonterminals ↔ (d.sense s).alternatives ≠ [] := by
      rw [← halternatives, WeightedGrammar.nonterminals, Std.TreeMap.mem_keys,
        Std.TreeMap.mem_iff_isSome_getElem?, hbuilt.getElem?_rules]
      split <;> simp_all
    rw [hne, sense]
    rcases d.definitions[s]? with _ | (rhss | words) <;>
      simp [Definition.sense, Sense.none]
  case isCategory_iff =>
    intro s
    rw [hcategory, sense]
    rcases d.definitions[s]? with _ | (rhss | words) <;>
      simp [Definition.sense, Sense.none]
  case wordWeight?_iff =>
    intro s word w
    rw [hword, sense]
    cases hs : d.definitions[s]? with
    | none => simp [Sense.none]
    | some e =>
      cases e with
      | alternatives rhss => simp [Definition.sense]
      | words words =>
        obtain ⟨ws, hws⟩ := hfits hs
        simp only [Option.map_some, Option.getD_some, Definition.sense, hws,
          getD_wordWeights? hws]
        grind

/-! ## What comes of a document -/

/-- Either the fault of the first faulty definition is reported, or the grammar is what the
document describes. -/
structure ReadAs (d : Document W) (outcome : Except FormatError (WeightedGrammar W)) : Prop where
  fails_iff : (∃ error, outcome = .error error) ↔ ∃ s f, d.Faulty s f
  fault_first {error : FormatError} : outcome = .error error →
    ∃ s f, d.Faulty s f ∧ (∀ t f', d.Faulty t f' → s ≤ t) ∧ error = ⟨0, f⟩
  describes {g : WeightedGrammar W} : outcome = .ok g → d.Describes g

theorem readAs_toGrammar {d : Document Float} {text : String}
    (htext : WeightedGrammar.ofJson text = d.toGrammar "S") :
    d.ReadAs (WeightedGrammar.ofJson text) := by
  by_cases hfaulty : ∃ s f, d.Faulty s f
  · obtain ⟨s, f, hf, hfirst⟩ := exists_first_fault hfaulty
    rw [htext, toGrammar_error hf hfirst]
    constructor
    case fails_iff => exact ⟨fun _ => hfaulty, fun _ => ⟨_, rfl⟩⟩
    case fault_first => exact fun h => ⟨s, f, hf, hfirst, (Except.error.inj h).symm⟩
    case describes => exact fun h => (nomatch h)
  · have hfits {s : String} {e : Definition} (he : d.definitions[s]? = some e) :
        e.Fits d.probabilities[s]? := by
      by_contra hnot
      obtain ⟨f, hf⟩ := exists_fault_of_not_fits s hnot
      exact hfaulty ⟨s, f, e, he, hf⟩
    obtain ⟨g, hg, hstart, hsense⟩ := toGrammar_ok "S" hfits
    have hok := htext.trans hg
    rw [hok]
    constructor
    case fails_iff => exact ⟨fun ⟨_, h⟩ => (nomatch h), fun h => absurd h hfaulty⟩
    case fault_first => exact fun h => (nomatch h)
    case describes =>
      intro g' h
      obtain rfl := Except.ok.inj h
      exact describes_of_sense (WeightedGrammar.built_of_ofJson hok) hstart hfits hsense

end Document

/-! ## Maps of another shape -/

namespace Document.Alike

variable [Zero W] {d d' : Document W} {ps ps' : Option (Probabilities W)}

omit [Zero W] in
theorem faultyWith_iff (h : Option.Rel Probabilities.Alike ps ps') (e : Definition) (s : String)
    (f : FormatFault) : e.FaultyWith s ps' f ↔ e.FaultyWith s ps f := by
  cases h with
  | none => rfl
  | some h =>
    cases h with
    | perAlternative => rfl
    | perWord hsame =>
      constructor <;> intro hfault <;> cases hfault
      case mp.wordWeights => exact .wordWeights _ _
      case mpr.wordWeights => exact .wordWeights _ _
      all_goals exact absurd rfl (‹∀ ws, _ ≠ some (Probabilities.perWord ws)› _)

omit [Zero W] in
theorem faulty_iff (h : d.Alike d') (s : String) (f : FormatFault) :
    d'.Faulty s f ↔ d.Faulty s f := by
  simp only [Faulty, h.definitions, faultyWith_iff (h.probabilities s)]

theorem alternativeWeight_eq (h : d.Alike d') (s : String) (place : Nat) :
    d'.alternativeWeight s place = d.alternativeWeight s place := by
  have hs := h.probabilities s
  unfold alternativeWeight
  generalize d.probabilities[s]? = ps, d'.probabilities[s]? = ps' at hs
  cases hs with
  | none => rfl
  | some hs => cases hs <;> rfl

theorem wordWeight_eq (h : d.Alike d') (s word : String) :
    d'.wordWeight s word = d.wordWeight s word := by
  have hs := h.probabilities s
  unfold wordWeight
  generalize d.probabilities[s]? = ps, d'.probabilities[s]? = ps' at hs
  cases hs with
  | none => rfl
  | some hs =>
    cases hs with
    | perAlternative => rfl
    | perWord hsame => simp only [hsame]

theorem describes (h : d.Alike d') {g : WeightedGrammar W} (hg : d'.Describes g) :
    d.Describes g where
  start_eq := hg.start_eq
  alternatives_eq hs := by
    rw [hg.alternatives_eq ((h.definitions _).trans hs)]
    simp only [h.alternativeWeight_eq]
  mem_nonterminals s := by rw [hg.mem_nonterminals, h.definitions]
  isCategory_iff s := by rw [hg.isCategory_iff, h.definitions]
  wordWeight?_iff s word w := by rw [hg.wordWeight?_iff, h.definitions, h.wordWeight_eq]

/-- What comes of a document does not depend on the shape of its maps. -/
theorem readAs (h : d.Alike d') {outcome : Except FormatError (WeightedGrammar W)}
    (hread : d'.ReadAs outcome) : d.ReadAs outcome where
  fails_iff := by simpa only [h.faulty_iff] using hread.fails_iff
  fault_first herror := by simpa only [h.faulty_iff] using hread.fault_first herror
  describes hok := h.describes (hread.describes hok)

end Document.Alike

end TabularParsing
