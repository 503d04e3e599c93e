import TabularParsing.Proofs.Entries
import TabularParsing.Proofs.Fallible
import TabularParsing.WeightedGrammar.Document

/-!
# Reading JSON values

A reader of JSON values is described by what a value spells: lists and objects spell what their
items and fields spell. What spells something is read as that, but for the shape of maps, and
nothing else is read.

## Main definitions

* `Json.Decodes`: a reader that reads what is spelled and nothing else.
* `Json.ListOf`, `Json.MapOf`: lists and maps of values that are spelled.

## Main statements

* `Json.Decodes.list`, `Json.Decodes.map`
-/
namespace TabularParsing

namespace Json

variable {α β : Type} {j : Json}

/-- What is read from a value is spelled by it, and what a value spells is read from it, or
something that is the same. -/
structure Decodes (decode? : Json → Option α) (Spells : α → Json → Prop)
    (Same : α → α → Prop) : Prop where
  sound {j : Json} {a : α} : decode? j = some a → Spells a j
  complete {j : Json} {a : α} : Spells a j → ∃ b, decode? j = some b ∧ Same a b

/-- The items of a list spell the members of another. -/
def ListOf (Spells : α → Json → Prop) (as : List α) (j : Json) : Prop :=
  ∃ items, j = .array items ∧ List.Forall₂ Spells as items

/-- Every field of an object spells a value; of two fields with one key the later counts. -/
def MapOf (Spells : α → Json → Prop) (m : Std.TreeMap String α) (j : Json) : Prop :=
  ∃ fields : List (String × Json), j = .object (fields.map fun f => (some f.1, f.2)) ∧
    (∀ f ∈ fields, ∃ a, Spells a f.2) ∧ ∀ s, Option.Rel Spells m[s]? (lastValue? fields s)

def IsText (s : String) (j : Json) : Prop := j = .string (some s)

/-- A literal whose value is a double. -/
def IsNumber (w : Float) (j : Json) : Prop :=
  ∃ literal, j = .number literal ∧ valueOf? literal = some w

/-! ## Lists and maps -/

theorem items?_eq_some_iff {items : List Json} : j.items? = some items ↔ j = .array items := by
  cases j <;> simp [items?]

theorem fields?_object (fields : List (String × Json)) :
    (object (fields.map fun f => (some f.1, f.2))).fields? = some fields := by
  have hread : (fields.map fun f => (some f.1, f.2)).mapM
      (fun f : Option String × Json => f.1.map fun k => (k, f.2)) =
      some (fields.map fun f => f) := mapM_map_eq_some fun _ _ => rfl
  rwa [List.map_id'] at hread

/-- The fields of an object determine it, if all keys have a text. -/
theorem eq_object_of_fields? {fields : List (String × Json)} (h : j.fields? = some fields) :
    j = .object (fields.map fun f => (some f.1, f.2)) := by
  cases j with
  | object raw =>
    have hraw : raw.map (fun f => f) = fields.map fun f => (some f.1, f.2) := by
      refine map_eq_of_forall₂ ((forall₂_of_mapM h).flip.imp ?_)
      rintro ⟨key, value⟩ f hf
      obtain ⟨k, rfl, rfl⟩ := Option.map_eq_some_iff.1 hf
      rfl
    rw [← hraw, List.map_id']
  | _ => cases h

/-- A list is read if each of its items is. -/
theorem Decodes.list {decode? : Json → Option α} {Spells : α → Json → Prop} {Same : α → α → Prop}
    (h : Decodes decode? Spells Same) :
    Decodes (fun j => j.items? >>= fun items => items.mapM decode?) (ListOf Spells)
      (List.Forall₂ Same) := by
  constructor
  case sound =>
    intro j as hread
    obtain ⟨items, hitems, hread⟩ := Option.bind_eq_some_iff.1 hread
    exact ⟨items, items?_eq_some_iff.1 hitems, (forall₂_of_mapM hread).imp fun _ _ => h.sound⟩
  case complete =>
    rintro j as ⟨items, rfl, hitems⟩
    change ∃ bs, items.mapM decode? = some bs ∧ List.Forall₂ Same as bs
    induction hitems with
    | nil => exact ⟨[], rfl, .nil⟩
    | cons ha _ ih =>
      obtain ⟨b, hb, hsame⟩ := h.complete ha
      obtain ⟨bs, hbs, hall⟩ := ih
      exact ⟨b :: bs, by rw [List.mapM_cons, hb, hbs]; rfl, .cons hsame hall⟩

/-- Reading an object entry by entry keeps its keys. -/
theorem map_eq_of_mapM {decode? : Json → Option α} {fields : List (String × Json)}
    {entries : List (String × α)}
    (h : (fields.mapM fun f => (decode? f.2).map fun a => (f.1, a)) = some entries) :
    fields.map (fun f => (f.1, decode? f.2)) = entries.map fun e => (e.1, some e.2) := by
  refine map_eq_of_forall₂ ((forall₂_of_mapM h).flip.imp ?_)
  intro f e he
  obtain ⟨a, ha, rfl⟩ := Option.map_eq_some_iff.1 he
  rw [ha]

/-- What is read from an object is what is read from the last of the fields with each key. -/
theorem getElem?_of_mapOf? {decode? : Json → Option α} {m : Std.TreeMap String α}
    (h : Document.mapOf? decode? j = some m) :
    ∃ fields : List (String × Json), j.fields? = some fields ∧
      (∀ f ∈ fields, (decode? f.2).isSome = true) ∧
      ∀ s, m[s]?.map some = (lastValue? fields s).map decode? := by
  obtain ⟨fields, hfields, h⟩ := Option.bind_eq_some_iff.1 h
  obtain ⟨entries, hentries, h⟩ := Option.bind_eq_some_iff.1 h
  obtain rfl := Option.some.inj h
  have hread := map_eq_of_mapM hentries
  refine ⟨fields, hfields, fun f hf => ?_, fun s => ?_⟩
  · have hmem := List.mem_map_of_mem (f := fun f => (f.1, decode? f.2)) hf
    rw [hread] at hmem
    obtain ⟨e, -, he⟩ := List.mem_map.1 hmem
    rw [← (Prod.mk.inj he).2]
    rfl
  · rw [getElem?_foldl_insert_empty, ← lastValue?_map, ← lastValue?_map, hread]

/-- A map is read if each of its fields is. -/
theorem Decodes.map {decode? : Json → Option α} {Spells : α → Json → Prop} {Same : α → α → Prop}
    (h : Decodes decode? Spells Same) : Decodes (Document.mapOf? decode?) (MapOf Spells)
      fun m m' => ∀ s : String, Option.Rel Same m[s]? m'[s]? := by
  constructor
  case sound =>
    intro j m hread
    obtain ⟨fields, hfields, hall, hlast⟩ := getElem?_of_mapOf? hread
    refine ⟨fields, eq_object_of_fields? hfields, fun f hf => ?_, fun s => ?_⟩
    · obtain ⟨a, ha⟩ := Option.isSome_iff_exists.1 (hall f hf)
      exact ⟨a, h.sound ha⟩
    · have hs := hlast s
      cases hm : m[s]? <;> cases hv : lastValue? fields s <;> simp only [hm, hv] at hs
      case none.none => exact .none
      case some.some a v => exact .some (h.sound (Option.some.inj hs).symm)
      all_goals cases hs
  case complete =>
    rintro j m ⟨fields, rfl, hall, hlast⟩
    have hread : (fields.mapM fun f => (decode? f.2).map fun a => (f.1, a)).isSome = true :=
      isSome_mapM fun f hf => by
        obtain ⟨a, ha⟩ := hall f hf
        obtain ⟨b, hb, -⟩ := h.complete ha
        rw [hb]
        rfl
    obtain ⟨entries, hentries⟩ := Option.isSome_iff_exists.1 hread
    have hmap : Document.mapOf? decode? (.object (fields.map fun f => (some f.1, f.2))) =
        some (entries.foldl (fun m e => m.insert e.1 e.2) ∅) := by
      simp only [Document.mapOf?, fields?_object, bind, Option.bind_some, hentries]
      rfl
    refine ⟨_, hmap, fun s => ?_⟩
    obtain ⟨fields', hfields', -, hlast'⟩ := getElem?_of_mapOf? hmap
    obtain rfl := Option.some.inj ((fields?_object fields).symm.trans hfields')
    have hs := hlast' s
    have hspells := hlast s
    generalize m[s]? = a?, lastValue? fields s = v? at hs hspells ⊢
    cases hspells with
    | none =>
      rw [Option.map_eq_none_iff.1 hs]
      exact .none
    | some ha =>
      obtain ⟨b, hb, hsame⟩ := h.complete ha
      rw [Option.map_some, hb] at hs
      obtain ⟨b', hb', heq⟩ := Option.map_eq_some_iff.1 hs
      obtain rfl := Option.some.inj heq
      rw [hb']
      exact .some hsame

theorem eq_of_rel_eq {a b : Option α} (h : Option.Rel Eq a b) : b = a := by
  cases h with
  | none => rfl
  | some h => rw [h]

theorem decodes_text? : Decodes text? IsText Eq := by
  constructor
  case sound =>
    intro j s h
    cases j with
    | string text => exact congrArg string h
    | _ => cases h
  case complete =>
    rintro j s rfl
    exact ⟨s, rfl, rfl⟩

theorem decodes_number? : Decodes number? IsNumber Eq := by
  constructor
  case sound =>
    intro j w h
    cases j with
    | number literal => exact ⟨literal, rfl, h⟩
    | _ => cases h
  case complete =>
    rintro j w ⟨literal, rfl, h⟩
    exact ⟨w, h, rfl⟩

end Json

end TabularParsing
