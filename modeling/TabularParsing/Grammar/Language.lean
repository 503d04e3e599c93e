import TabularParsing.Grammar.Basic

/-!
# What a grammar derives

A symbol derives a word by a word rule, and the words of its two children one after the other by a
pair rule. Derivations may be restricted to some of the rules, and may be scored.

## Main statements

* `DerivesBy.ne_nil`: nothing derives the empty list of words.
* `derivesBy_iff_scores`: scoring leaves nothing out.
-/
namespace TabularParsing.Grammar

/-- A symbol derives words by rules that are `usable`. -/
inductive DerivesBy (usable : Rule → Prop) : String → List String → Prop where
  | word {lhs w : String} : usable (.word lhs w) → DerivesBy usable lhs [w]
  | pair {lhs left right : String} {us vs : List String} : usable (.pair lhs left right) →
      DerivesBy usable left us → DerivesBy usable right vs → DerivesBy usable lhs (us ++ vs)

/-- A symbol derives words by the rules of a grammar. -/
def Derives (g : Grammar) : String → List String → Prop := DerivesBy (· ∈ g.rules)

/-- A derivation and its score: left child, rule, right child, added from the left. -/
inductive Scores {L : Type} [Add L] (usable : Rule → Prop) (ruleScore : Rule → L) :
    String → List String → L → Prop where
  | word {lhs w : String} : usable (.word lhs w) →
      Scores usable ruleScore lhs [w] (ruleScore (.word lhs w))
  | pair {lhs left right : String} {us vs : List String} {x y : L} :
      usable (.pair lhs left right) →
      Scores usable ruleScore left us x → Scores usable ruleScore right vs y →
      Scores usable ruleScore lhs (us ++ vs) (x + ruleScore (.pair lhs left right) + y)

variable {usable : Rule → Prop} {symbol : String} {ws : List String}

theorem DerivesBy.ne_nil (h : DerivesBy usable symbol ws) : ws ≠ [] := by
  induction h with
  | word _ => simp
  | pair _ _ _ hleft _ => simp [hleft]

theorem DerivesBy.mono {usable' : Rule → Prop} (hsub : ∀ r, usable r → usable' r)
    (h : DerivesBy usable symbol ws) : DerivesBy usable' symbol ws := by
  induction h with
  | word hr => exact .word (hsub _ hr)
  | pair hr _ _ hleft hright => exact .pair (hsub _ hr) hleft hright

theorem derivesBy_iff_scores {L : Type} [Add L] (ruleScore : Rule → L) :
    DerivesBy usable symbol ws ↔ ∃ x, Scores usable ruleScore symbol ws x := by
  constructor
  · intro h
    induction h with
    | word hr => exact ⟨_, .word hr⟩
    | pair hr _ _ hleft hright =>
      obtain ⟨x, hx⟩ := hleft
      obtain ⟨y, hy⟩ := hright
      exact ⟨_, .pair hr hx hy⟩
  · rintro ⟨x, h⟩
    induction h with
    | word hr => exact .word hr
    | pair hr _ _ hleft hright => exact .pair hr hleft hright

end TabularParsing.Grammar
