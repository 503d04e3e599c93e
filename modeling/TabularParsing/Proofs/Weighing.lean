import TabularParsing.WeightedGrammar.Language

/-!
# Weights of derivations

A production multiplies its weight onto the product of those before it, a literal word leaves the
product as it is.

## Main definitions

* `times`: multiplied by the weight of a production, if it has one.
* `WeightedGrammar.WeightsIn`: what all weights of a grammar satisfy.
-/
namespace TabularParsing

variable {W : Type} [Mul W]

/-- Multiplied by the weight of a production, if it has one. -/
def times (y : Option W) (x : W) : W := y.elim x (· * x)

namespace WeightedGrammar

variable {g : WeightedGrammar W}

theorem WeighsAll.head {p : Production} {ps : List Production} {us vs : List String}
    {y : Option W} {w x : W} (hp : g.Weighs p us y) (hps : g.WeighsAll (times y w) ps vs x) :
    g.WeighsAll w (p :: ps) (us ++ vs) x := by
  cases y with
  | none => exact .skip hp hps
  | some y => exact .cons hp hps

/-- One more production multiplies its weight onto the product. -/
theorem WeighsAll.snoc {w x : W} {ps : List Production} {ws us : List String} {p : Production}
    {y : Option W} :
    g.WeighsAll w ps ws x → g.Weighs p us y → g.WeighsAll w (ps ++ [p]) (ws ++ us) (times y x)
  | .nil, hp => by simpa using WeighsAll.head hp .nil
  | .skip h hs, hp => by rw [List.append_assoc]; exact .skip h (hs.snoc hp)
  | .cons h hs, hp => by rw [List.append_assoc]; exact .cons h (hs.snoc hp)

theorem weighsAll_cons_iff {w x : W} {p : Production} {ps : List Production} {ws : List String} :
    g.WeighsAll w (p :: ps) ws x ↔ ∃ us vs y, ws = us ++ vs ∧ g.Weighs p us y ∧
      g.WeighsAll (times y w) ps vs x := by
  constructor
  · intro h
    cases h with
    | skip hp hps => exact ⟨_, _, none, rfl, hp, hps⟩
    | cons hp hps => exact ⟨_, _, some _, rfl, hp, hps⟩
  · rintro ⟨us, vs, y, rfl, hp, hps⟩
    exact .head hp hps

theorem weighsAll_singleton_iff {w x : W} {p : Production} {ws : List String} :
    g.WeighsAll w [p] ws x ↔ ∃ y, g.Weighs p ws y ∧ x = times y w := by
  constructor
  · intro h
    cases h with
    | skip hp hnil =>
      cases hnil
      exact ⟨none, by simpa using hp, rfl⟩
    | cons hp hnil =>
      cases hnil
      exact ⟨some _, by simpa using hp, rfl⟩
  · rintro ⟨y, hp, rfl⟩
    simpa using WeighsAll.head hp .nil

/-- All weights of rules and words satisfy `P`. -/
structure WeightsIn (g : WeightedGrammar W) (P : W → Prop) : Prop where
  rules : ∀ {symbol : String} {r : WeightedRule W}, r ∈ g.alternatives symbol → P r.weight
  words : ∀ {category word : String} {w : W}, g.wordWeight? category word = some w → P w

section WeightsIn

variable {W : Type} {g : WeightedGrammar W} {P : W → Prop}

theorem weightsIn_trivial (g : WeightedGrammar W) : g.WeightsIn fun _ => True :=
  ⟨fun _ => trivial, fun _ => trivial⟩

theorem weightsIn_empty (start : String) : (empty start : WeightedGrammar W).WeightsIn P where
  rules h := by rw [alternatives_empty] at h; cases h
  words h := by simp [wordWeight?, empty] at h

theorem WeightsIn.addFilled (h : g.WeightsIn P) {r : WeightedRule W} (hne : r.productions ≠ [])
    (hr : P r.weight) : (g.addFilled r hne).WeightsIn P where
  rules hq := by
    rw [alternatives_addFilled, List.mem_append] at hq
    rcases hq with hq | hq
    · exact h.rules hq
    · split at hq
      · rwa [List.mem_singleton.1 hq]
      · cases hq
  words hw := h.words hw

theorem WeightsIn.addSymbols (h : g.WeightsIn P) {g' : WeightedGrammar W} {lhs : String}
    {symbols : List String} {w : W} (hw : P w) (hadd : g.addSymbols lhs symbols w = .ok g') :
    g'.WeightsIn P := by
  obtain ⟨hne, rfl⟩ := exists_addFilled_of_addSymbols hadd
  exact h.addFilled hne hw

theorem WeightsIn.listWord (h : g.WeightsIn P) (category word : String) {w : W} (hw : P w) :
    (g.listWord category word w).WeightsIn P where
  rules hr := h.rules hr
  words hv := by
    rw [wordWeight?_listWord] at hv
    split at hv
    · exact Option.some.inj hv ▸ hw
    · exact h.words hv

end WeightsIn

mutual

/-- The weights of derivations are products of weights of rules and words. -/
theorem WeightsIn.of_weighs {P : W → Prop} (hg : g.WeightsIn P)
    (hmul : ∀ {x y : W}, P x → P y → P (x * y)) {p : Production} {ws : List String}
    {y : Option W} : g.Weighs p ws y → ∀ x ∈ y, P x
  | .listed h => fun _ hx => Option.some.inj hx ▸ hg.words h
  | .literal _ => fun _ hx => by cases hx
  | .alternative _ hr h => fun _ hx =>
    Option.some.inj hx ▸ hg.of_weighsAll hmul h (hg.rules hr)

theorem WeightsIn.of_weighsAll {P : W → Prop} (hg : g.WeightsIn P)
    (hmul : ∀ {x y : W}, P x → P y → P (x * y)) {ps : List Production} {ws : List String}
    {w x : W} : g.WeighsAll w ps ws x → P w → P x
  | .nil => id
  | .skip _ hs => hg.of_weighsAll hmul hs
  | .cons h hs => fun hw => hg.of_weighsAll hmul hs (hmul (hg.of_weighs hmul h _ rfl) hw)

end

end WeightedGrammar

end TabularParsing
