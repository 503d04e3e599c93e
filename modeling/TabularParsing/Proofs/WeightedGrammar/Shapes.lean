import TabularParsing.Proofs.Json.Decoding

/-!
# The shape of a document

Which JSON values spell a document is said without the order in which shapes are tried. Lists of
strings that are themselves in a list are alternatives, other strings are words; an empty list
holds no alternative. A list gives probabilities by alternative, an object by word. What spells a
document is read as that document, but for the shape of its maps, and nothing else is read.

## Main definitions

* `Definition.SpelledBy`, `Probabilities.SpelledBy`, `Document.SpelledBy`
* `Document.Alike`: documents that differ in the shape of their maps only.

## Main statement

* `Document.decodes`
-/
namespace TabularParsing

open Json

/-- A definition is a list of lists of strings, or a list of strings that is not empty. -/
inductive Definition.SpelledBy : Definition → Json → Prop where
  | alternatives {rhss : List (List String)} {j : Json} :
      ListOf (ListOf IsText) rhss j → SpelledBy (.alternatives rhss) j
  | words {words : List String} {j : Json} :
      ListOf IsText words j → words ≠ [] → SpelledBy (.words words) j

/-- A weight is a number or a list of numbers. -/
inductive AlternativeWeight.SpelledBy : AlternativeWeight Float → Json → Prop where
  | bare {w : Float} {j : Json} : IsNumber w j → SpelledBy (.bare w) j
  | wrapped {ws : List Float} {j : Json} : ListOf IsNumber ws j → SpelledBy (.wrapped ws) j

/-- Probabilities are a list of weights, or an object with a number for each word. -/
inductive Probabilities.SpelledBy : Probabilities Float → Json → Prop where
  | perAlternative {ws : List (AlternativeWeight Float)} {j : Json} :
      ListOf AlternativeWeight.SpelledBy ws j → SpelledBy (.perAlternative ws) j
  | perWord {ws : Std.TreeMap String Float} {j : Json} :
      MapOf IsNumber ws j → SpelledBy (.perWord ws) j

/-- Both parts stand in a list, or each in the only field with its name. -/
inductive Json.HasParts (definitions probabilities : Json) : Json → Prop where
  | list : HasParts definitions probabilities (.array [definitions, probabilities])
  | object {fields : List (String × Json)} :
      (fields.filter fun f => f.1 == "define_rules") = [("define_rules", definitions)] →
      (fields.filter fun f => f.1 == "probabilities") = [("probabilities", probabilities)] →
      HasParts definitions probabilities (.object (fields.map fun f => (some f.1, f.2)))

/-- Both parts of a document are maps from symbols. -/
def Document.SpelledBy (d : Document Float) (j : Json) : Prop :=
  ∃ definitions probabilities, HasParts definitions probabilities j ∧
    MapOf Definition.SpelledBy d.definitions definitions ∧
    MapOf Probabilities.SpelledBy d.probabilities probabilities

/-- The same weights, in maps of whatever shape. -/
inductive Probabilities.Alike {W : Type} : Probabilities W → Probabilities W → Prop where
  | perAlternative (ws : List (AlternativeWeight W)) :
      Alike (.perAlternative ws) (.perAlternative ws)
  | perWord {ws ws' : Std.TreeMap String W} : (∀ word : String, ws'[word]? = ws[word]?) →
      Alike (.perWord ws) (.perWord ws')

/-- The same definitions and probabilities, in maps of whatever shape. -/
structure Document.Alike {W : Type} (d d' : Document W) : Prop where
  definitions (s : String) : d'.definitions[s]? = d.definitions[s]?
  probabilities (s : String) :
    Option.Rel Probabilities.Alike d.probabilities[s]? d'.probabilities[s]?

namespace Document

variable {j : Json}

theorem decodes_strings? : Decodes strings? (ListOf IsText) Eq := by
  have hlist := decodes_text?.list
  rwa [List.forall₂_eq_eq_eq] at hlist

theorem decodes_numbers? : Decodes numbers? (ListOf IsNumber) Eq := by
  have hlist := decodes_number?.list
  rwa [List.forall₂_eq_eq_eq] at hlist

theorem decodes_definition? : Decodes definition? Definition.SpelledBy Eq := by
  have hlists := decodes_strings?.list
  rw [List.forall₂_eq_eq_eq] at hlists
  constructor
  case sound =>
    intro j e h
    rcases Option.or_eq_some_iff.1 h with h | ⟨hnone, h⟩
    · obtain ⟨rhss, hrhss, rfl⟩ := Option.map_eq_some_iff.1 h
      exact .alternatives (hlists.sound hrhss)
    · obtain ⟨words, hwords, rfl⟩ := Option.map_eq_some_iff.1 h
      refine .words (decodes_strings?.sound hwords) ?_
      -- an empty list has been read as alternatives
      rintro rfl
      obtain ⟨items, rfl, hitems⟩ := decodes_strings?.sound hwords
      cases hitems
      cases hnone
  case complete =>
    intro j e h
    cases h with
    | alternatives h =>
      obtain ⟨rhss, hrhss, rfl⟩ := hlists.complete h
      exact ⟨_, by rw [definition?, hrhss]; rfl, rfl⟩
    | words h hne =>
      obtain ⟨words, hwords, rfl⟩ := decodes_strings?.complete h
      obtain ⟨items, rfl, hitems⟩ := h
      -- the first of the words is a string and no list of strings
      cases hitems with
      | nil => exact absurd rfl hne
      | cons htext _ =>
        obtain rfl := htext
        exact ⟨_, by rw [definition?, hwords]; rfl, rfl⟩

theorem decodes_alternativeWeight? :
    Decodes alternativeWeight? AlternativeWeight.SpelledBy Eq := by
  constructor
  case sound =>
    intro j w h
    rcases Option.or_eq_some_iff.1 h with h | ⟨-, h⟩
    · obtain ⟨w, hw, rfl⟩ := Option.map_eq_some_iff.1 h
      exact .bare (decodes_number?.sound hw)
    · obtain ⟨ws, hws, rfl⟩ := Option.map_eq_some_iff.1 h
      exact .wrapped (decodes_numbers?.sound hws)
  case complete =>
    intro j w h
    cases h with
    | bare h =>
      obtain ⟨w, hw, rfl⟩ := decodes_number?.complete h
      exact ⟨_, by rw [alternativeWeight?, hw]; rfl, rfl⟩
    | wrapped h =>
      obtain ⟨ws, hws, rfl⟩ := decodes_numbers?.complete h
      obtain ⟨items, rfl, -⟩ := h
      exact ⟨_, by rw [alternativeWeight?, hws]; rfl, rfl⟩

theorem decodes_probabilities? :
    Decodes probabilities? Probabilities.SpelledBy Probabilities.Alike := by
  have hlist := decodes_alternativeWeight?.list
  rw [List.forall₂_eq_eq_eq] at hlist
  have hmap := decodes_number?.map
  constructor
  case sound =>
    intro j p h
    rcases Option.or_eq_some_iff.1 h with h | ⟨-, h⟩
    · obtain ⟨ws, hws, rfl⟩ := Option.map_eq_some_iff.1 h
      exact .perAlternative (hlist.sound hws)
    · obtain ⟨ws, hws, rfl⟩ := Option.map_eq_some_iff.1 h
      exact .perWord (hmap.sound hws)
  case complete =>
    intro j p h
    cases h with
    | perAlternative h =>
      obtain ⟨ws, hws, rfl⟩ := hlist.complete h
      exact ⟨_, by rw [probabilities?, hws]; rfl, .perAlternative _⟩
    | perWord h =>
      obtain ⟨ws, hws, hsame⟩ := hmap.complete h
      obtain ⟨fields, rfl, -⟩ := h
      exact ⟨_, by rw [probabilities?, hws]; rfl, .perWord fun word => eq_of_rel_eq (hsame word)⟩

theorem uniqueField?_eq_some_iff {key : String} {fields : List (String × Json)} {v : Json} :
    uniqueField? key fields = some v ↔ (fields.filter fun f => f.1 == key) = [(key, v)] := by
  rw [uniqueField?]
  split
  case h_1 f hf =>
    have hkey : f.1 = key := by
      have hmem : f ∈ fields.filter fun f => f.1 == key := by simp [hf]
      exact beq_iff_eq.1 (List.mem_filter.1 hmem).2
    simp [hf, Prod.ext_iff, hkey]
  case h_2 hf =>
    exact ⟨fun h => (nomatch h), fun h => absurd h (hf _)⟩

/-- The parts of a document are found where they stand. -/
theorem parts?_eq_some_iff {definitions probabilities : Json} :
    parts? j = some (definitions, probabilities) ↔ HasParts definitions probabilities j := by
  constructor
  case mp =>
    intro h
    unfold parts? at h
    split at h
    case h_1 =>
      obtain ⟨rfl, rfl⟩ := Prod.mk.inj (Option.some.inj h)
      exact .list
    case h_2 =>
      obtain ⟨fields, hfields, h⟩ := Option.bind_eq_some_iff.1 h
      obtain ⟨ds, hds, h⟩ := Option.bind_eq_some_iff.1 h
      obtain ⟨ps, hps, h⟩ := Option.bind_eq_some_iff.1 h
      obtain ⟨rfl, rfl⟩ := Prod.mk.inj (Option.some.inj h)
      rw [eq_object_of_fields? hfields]
      exact .object (uniqueField?_eq_some_iff.1 hds) (uniqueField?_eq_some_iff.1 hps)
  case mpr =>
    rintro (_ | ⟨hds, hps⟩)
    · rfl
    · simp only [parts?, fields?_object, bind, Option.bind_some, uniqueField?_eq_some_iff.2 hds,
        uniqueField?_eq_some_iff.2 hps]
      rfl

/-- What spells a document is read as that document. -/
theorem decodes : Decodes ofJson? SpelledBy Alike := by
  constructor
  case sound =>
    intro j d h
    obtain ⟨⟨definitions, probabilities⟩, hparts, h⟩ := Option.bind_eq_some_iff.1 h
    obtain ⟨ds, hds, h⟩ := Option.bind_eq_some_iff.1 h
    obtain ⟨ps, hps, h⟩ := Option.bind_eq_some_iff.1 h
    obtain rfl := Option.some.inj h
    exact ⟨definitions, probabilities, parts?_eq_some_iff.1 hparts,
      decodes_definition?.map.sound hds, decodes_probabilities?.map.sound hps⟩
  case complete =>
    rintro j d ⟨definitions, probabilities, hparts, hds, hps⟩
    obtain ⟨ds, hds, hsame⟩ := decodes_definition?.map.complete hds
    obtain ⟨ps, hps, halike⟩ := decodes_probabilities?.map.complete hps
    refine ⟨⟨ds, ps⟩, ?_, fun s => eq_of_rel_eq (hsame s), halike⟩
    simp only [ofJson?, parts?_eq_some_iff.2 hparts, bind, Option.bind_some, hds, hps]
    rfl

end Document

end TabularParsing
