import TabularParsing.Proofs.Earley.Soundness
import TabularParsing.Proofs.Grammar.Pass
import TabularParsing.Proofs.Weighing

/-!
# What a converted grammar derives

The weighted grammar of a grammar in Chomsky normal form has no lexicon. Its nonterminals derive
what they derive in the grammar, and a derivation weighs the product of the weights of its rules.

## Main definitions

* `Grammar.Multiplies`: a derivation and the product of the weights of its rules.
* `Grammar.SpelledApart`: no word is spelled like a nonterminal that a parse waits for.

## Main statements

* `WeightedGrammar.weighs_ofCnf_iff`: what a derivation weighs.
* `WeightedGrammar.derives_ofCnf_iff`: what a nonterminal derives.
* `Grammar.SpelledApart.consistent`
-/
namespace TabularParsing

variable {W : Type}

namespace Grammar

/-- A derivation and the product of the weights of its rules: right child times left child times
rule. -/
inductive Multiplies [Mul W] (usable : Rule → Prop) (weight : Rule → W) :
    String → List String → W → Prop where
  | word {lhs w : String} : usable (.word lhs w) →
      Multiplies usable weight lhs [w] (weight (.word lhs w))
  | pair {lhs left right : String} {us vs : List String} {x y : W} :
      usable (.pair lhs left right) →
      Multiplies usable weight left us x → Multiplies usable weight right vs y →
      Multiplies usable weight lhs (us ++ vs) (y * (x * weight (.pair lhs left right)))

theorem derivesBy_iff_multiplies [Mul W] {usable : Rule → Prop} {symbol : String}
    {ws : List String} (weight : Rule → W) :
    DerivesBy usable symbol ws ↔ ∃ x, Multiplies usable weight symbol ws x := by
  constructor
  · intro h
    induction h with
    | word hr => exact ⟨_, .word hr⟩
    | pair hr _ _ hleft hright =>
      obtain ⟨x, hx⟩ := hleft
      obtain ⟨y, hy⟩ := hright
      exact ⟨_, .pair hr hx hy⟩
  · rintro ⟨x, h⟩
    induction h with
    | word hr => exact .word hr
    | pair hr _ _ hleft hright => exact .pair hr hleft hright

/-- No word of a word rule is spelled like a nonterminal that is the start or a child of a pair
rule. -/
def SpelledApart (g : Grammar) (start : String) : Prop :=
  ∀ ⦃lhs w : String⦄, .word lhs w ∈ g.rules → w ∈ g.nonterminals →
    w ≠ start ∧ ∀ ⦃lhs left right : String⦄, .pair lhs left right ∈ g.rules → w ≠ left ∧ w ≠ right

end Grammar

namespace WeightedGrammar

section NeNil

variable [Mul W] {g : WeightedGrammar W}

mutual

/-- No production derives the empty list of words. -/
theorem Weighs.ne_nil {p : Production} {ws : List String} {y : Option W} :
    g.Weighs p ws y → ws ≠ []
  | .listed _ => List.cons_ne_nil _ _
  | .literal _ => List.cons_ne_nil _ _
  | .alternative _ hr h => h.ne_nil (g.filed _ _ hr).2

theorem WeighsAll.ne_nil {ps : List Production} {ws : List String} {w x : W} :
    g.WeighsAll w ps ws x → ps ≠ [] → ws ≠ []
  | .nil => fun h => absurd rfl h
  | .skip h _ => fun _ => List.append_ne_nil_of_left_ne_nil h.ne_nil _
  | .cons h _ => fun _ => List.append_ne_nil_of_left_ne_nil h.ne_nil _

end

end NeNil

/-! ## Converted grammars -/

section OfCnf

variable [Zero W] {g : Grammar} {weights : RuleWeights W} {start symbol : String}

/-- Adding converted rules one after the other. -/
theorem foldl_addFilled (weights : RuleWeights W) (symbol : String) (rs : List Rule)
    (wg : WeightedGrammar W) :
    let added := rs.foldl (fun wg r => wg.addFilled (ofCnfRule r (weights.get r))
      (productions_ofCnfRule_ne_nil _ _)) wg
    added.start = wg.start ∧ added.lexicon = wg.lexicon ∧
      added.alternatives symbol = wg.alternatives symbol ++
        (rs.filter fun r => r.lhs == symbol).map fun r => ofCnfRule r (weights.get r) := by
  induction rs generalizing wg with
  | nil => simp
  | cons r rs ih =>
    obtain ⟨hstart, hlexicon, halternatives⟩ := ih (wg.addFilled
      (ofCnfRule r (weights.get r)) (productions_ofCnfRule_ne_nil _ _))
    refine ⟨hstart, hlexicon, halternatives.trans ?_⟩
    have hsymbol : (ofCnfRule r (weights.get r)).symbol = r.lhs := rfl
    rw [alternatives_addFilled, hsymbol, List.filter_cons, List.append_assoc]
    by_cases h : r.lhs = symbol <;> simp [h]

@[simp] theorem start_ofCnf : (ofCnf g weights start).start = start :=
  (foldl_addFilled weights start g.sortedRules (empty start)).1

/-- The alternatives of a symbol are its rules. -/
theorem alternatives_ofCnf : (ofCnf g weights start).alternatives symbol =
    (g.alternatives symbol).map fun r => ofCnfRule r (weights.get r) := by
  have h := foldl_addFilled weights symbol g.sortedRules (empty start : WeightedGrammar W)
  rw [alternatives_empty, List.nil_append, ← g.alternatives_eq] at h
  exact h.2.2

@[simp] theorem isCategory_ofCnf : (ofCnf g weights start).isCategory symbol = false := by
  have h : (ofCnf g weights start).lexicon = ∅ :=
    (foldl_addFilled weights symbol g.sortedRules (empty start)).2.1
  simp [isCategory, h]

theorem wordWeight?_ofCnf {word : String} :
    (ofCnf g weights start).wordWeight? symbol word = none := by
  rw [Option.eq_none_iff_forall_ne_some]
  intro w h
  have hcategory := isCategory_of_wordWeight? h
  rw [isCategory_ofCnf] at hcategory
  cases hcategory

theorem mem_alternatives_ofCnf {q : WeightedRule W} :
    q ∈ (ofCnf g weights start).alternatives symbol ↔
      ∃ r ∈ g.rules, r.lhs = symbol ∧ q = ofCnfRule r (weights.get r) := by
  simp only [alternatives_ofCnf, List.mem_map, Grammar.mem_alternatives, and_assoc, eq_comm]

theorem alternatives_ofCnf_ne_nil_iff :
    (ofCnf g weights start).alternatives symbol ≠ [] ↔ symbol ∈ g.nonterminals := by
  rw [Grammar.mem_nonterminals]
  constructor
  · intro h
    obtain ⟨q, hq⟩ := List.exists_mem_of_ne_nil _ h
    obtain ⟨r, hr, hlhs, -⟩ := mem_alternatives_ofCnf.1 hq
    exact ⟨r, hr, hlhs⟩
  · rintro ⟨r, hr, hlhs⟩
    exact List.ne_nil_of_mem (mem_alternatives_ofCnf.2 ⟨r, hr, hlhs, rfl⟩)

/-- All weights are weights of rules. -/
theorem weightsIn_ofCnf {P : W → Prop} (h : ∀ r ∈ g.rules, P (weights.get r)) :
    (ofCnf g weights start).WeightsIn P where
  rules hq := by
    obtain ⟨r, hr, -, rfl⟩ := mem_alternatives_ofCnf.1 hq
    exact h r hr
  words hw := by rw [wordWeight?_ofCnf] at hw; cases hw

variable [Mul W]

/-- A word derives itself. -/
theorem weighs_terminal_ofCnf_iff {w : String} {ws : List String} {y : Option W} :
    (ofCnf g weights start).Weighs (.terminal w) ws y ↔ ws = [w] ∧ y = none := by
  constructor
  · intro h
    cases h with
    | listed h => rw [wordWeight?_ofCnf] at h; cases h
    | literal _ => exact ⟨rfl, rfl⟩
  · rintro ⟨rfl, rfl⟩
    exact .literal isCategory_ofCnf

/-- A nonterminal derives what one of its rules derives. -/
theorem weighs_nonterminal_ofCnf_iff {ws : List String} {y : Option W} :
    (ofCnf g weights start).Weighs (.nonterminal symbol) ws y ↔ ∃ r ∈ g.rules, ∃ x,
      r.lhs = symbol ∧ y = some x ∧ (ofCnf g weights start).WeighsAll (weights.get r)
        (ofCnfRule r (weights.get r)).productions ws x := by
  constructor
  · intro h
    cases h with
    | listed h => rw [wordWeight?_ofCnf] at h; cases h
    | alternative _ hq hall =>
      obtain ⟨r, hr, hlhs, rfl⟩ := mem_alternatives_ofCnf.1 hq
      exact ⟨r, hr, _, hlhs, rfl, hall⟩
  · rintro ⟨r, hr, x, hlhs, rfl, hall⟩
    exact .alternative isCategory_ofCnf (mem_alternatives_ofCnf.2 ⟨r, hr, hlhs, rfl⟩) hall

/-- A derivation of a nonterminal weighs the product of the weights of its rules. -/
theorem weighs_ofCnf_iff {ws : List String} {y : Option W} :
    (ofCnf g weights start).Weighs (.nonterminal symbol) ws y ↔
      ∃ x, y = some x ∧ Grammar.Multiplies (· ∈ g.rules) weights.get symbol ws x := by
  constructor
  · intro h
    induction hn : ws.length using Nat.strongRecOn generalizing symbol ws y with
    | ind n ih =>
      obtain ⟨⟨lhs, rhs⟩, hr, x, rfl, rfl, hall⟩ := weighs_nonterminal_ofCnf_iff.1 h
      refine ⟨x, rfl, ?_⟩
      cases rhs with
      | word w =>
        obtain ⟨z, hz, rfl⟩ := weighsAll_singleton_iff.1 hall
        obtain ⟨rfl, rfl⟩ := weighs_terminal_ofCnf_iff.1 hz
        exact .word hr
      | pair left right =>
        obtain ⟨us, vs, z, rfl, hleft, hall⟩ := weighsAll_cons_iff.1 hall
        obtain ⟨z', hright, rfl⟩ := weighsAll_singleton_iff.1 hall
        have hus := List.length_pos_iff.2 hleft.ne_nil
        have hvs := List.length_pos_iff.2 hright.ne_nil
        rw [List.length_append] at hn
        obtain ⟨x, rfl, hx⟩ := ih _ (by omega) hleft rfl
        obtain ⟨x', rfl, hx'⟩ := ih _ (by omega) hright rfl
        exact .pair hr hx hx'
  · rintro ⟨x, rfl, h⟩
    induction h with
    | word hr =>
      refine weighs_nonterminal_ofCnf_iff.2 ⟨_, hr, _, rfl, rfl, ?_⟩
      exact weighsAll_singleton_iff.2 ⟨none, weighs_terminal_ofCnf_iff.2 ⟨rfl, rfl⟩, rfl⟩
    | pair hr _ _ hleft hright =>
      refine weighs_nonterminal_ofCnf_iff.2 ⟨_, hr, _, rfl, rfl, ?_⟩
      exact weighsAll_cons_iff.2 ⟨_, _, _, rfl, hleft,
        weighsAll_singleton_iff.2 ⟨_, hright, rfl⟩⟩

/-- A nonterminal derives what it derives in the grammar that was converted. -/
theorem derives_ofCnf_iff {ws : List String} :
    (ofCnf g weights start).Derives (.nonterminal symbol) ws ↔ g.Derives symbol ws := by
  rw [derives_iff_weighs, Grammar.Derives, Grammar.derivesBy_iff_multiplies weights.get]
  simp only [weighs_ofCnf_iff]
  constructor
  · rintro ⟨y, x, rfl, hx⟩
    exact ⟨x, hx⟩
  · rintro ⟨x, hx⟩
    exact ⟨_, x, rfl, hx⟩

end OfCnf

end WeightedGrammar

/-! ## Words and nonterminals -/

namespace Grammar

variable [Zero W] {g : Grammar} {weights : RuleWeights W} {start symbol : String}

/-- A parse waits for the start and for the children of pair rules. -/
theorem uses_nonterminal_ofCnf
    (h : (WeightedGrammar.ofCnf g weights start).Uses (.nonterminal symbol)) :
    symbol = start ∨ ∃ lhs left right, Rule.pair lhs left right ∈ g.rules ∧
      (symbol = left ∨ symbol = right) := by
  rcases h with hstart | ⟨lhs, q, hq, hmem⟩
  · have hsymbol := congrArg Production.symbol hstart
    rw [Production.symbol_ofSymbol, WeightedGrammar.start_ofCnf] at hsymbol
    exact .inl hsymbol
  · obtain ⟨⟨lhs, rhs⟩, hr, -, rfl⟩ := WeightedGrammar.mem_alternatives_ofCnf.1 hq
    cases rhs with
    | word w => simp [WeightedGrammar.ofCnfRule] at hmem
    | pair left right =>
      exact .inr ⟨lhs, left, right, hr, by simpa [WeightedGrammar.ofCnfRule] using hmem⟩

/-- The words of a parse are those of the word rules. -/
theorem uses_terminal_ofCnf (hstart : Text.startsUppercase start = true)
    (h : (WeightedGrammar.ofCnf g weights start).Uses (.terminal symbol)) :
    ∃ lhs, Rule.word lhs symbol ∈ g.rules := by
  rcases h with h | ⟨lhs, q, hq, hmem⟩
  · rw [WeightedGrammar.start_ofCnf, Production.ofSymbol, if_pos hstart] at h
    cases h
  · obtain ⟨⟨lhs, rhs⟩, hr, -, rfl⟩ := WeightedGrammar.mem_alternatives_ofCnf.1 hq
    cases rhs with
    | word w =>
      obtain rfl : symbol = w := by simpa [WeightedGrammar.ofCnfRule] using hmem
      exact ⟨lhs, hr⟩
    | pair left right => simp [WeightedGrammar.ofCnfRule] at hmem

/-- A nonterminal that a parse waits for is not spelled like a word. -/
theorem SpelledApart.not_mem_nonterminals (h : g.SpelledApart start) {lhs : String}
    (hr : .word lhs symbol ∈ g.rules)
    (huses : (WeightedGrammar.ofCnf g weights start).Uses (.nonterminal symbol)) :
    symbol ∉ g.nonterminals := by
  intro hsymbol
  obtain ⟨hne, hchildren⟩ := h hr hsymbol
  rcases uses_nonterminal_ofCnf huses with heq | ⟨lhs, left, right, hpair, heq⟩
  · exact hne heq
  · obtain ⟨hleft, hright⟩ := hchildren hpair
    exact heq.elim hleft hright

theorem SpelledApart.consistent (h : g.SpelledApart start)
    (hstart : Text.startsUppercase start = true) :
    (WeightedGrammar.ofCnf g weights start).Consistent := by
  intro symbol _ halternatives hnonterminal hterminal
  obtain ⟨lhs, hr⟩ := uses_terminal_ofCnf hstart hterminal
  exact h.not_mem_nonterminals hr hnonterminal
    (WeightedGrammar.alternatives_ofCnf_ne_nil_iff.1 halternatives)

/-- Words that are no nonterminals at all are spelled apart. -/
theorem spelledApart_of_not_mem (h : ∀ lhs w, .word lhs w ∈ g.rules → w ∉ g.nonterminals)
    (start : String) : g.SpelledApart start :=
  fun lhs w hr hw => absurd hw (h lhs w hr)

end Grammar

end TabularParsing
