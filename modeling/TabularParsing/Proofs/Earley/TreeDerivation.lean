import TabularParsing.Proofs.Earley.BestDerivation
import TabularParsing.Proofs.Earley.Scores
import TabularParsing.Proofs.Fallible

/-!
# Trees are derivations

The tree of a completed item is a derivation of the item's symbol over the words that the item
covers, and every branch weighs what its alternative and its children make it: the children that
stand in the chart by now, not those that stood there when the item was found.

## Main definitions

* `Tree.product`: the weights of some trees, multiplied one after the other.
* `Tree.Derivation`, `Tree.Derivations`: trees that derive a production, and productions one after
  the other.
* `Accounted`: what a completed item is for.

## Main statements

* `Chart.TreeAt.derivation`
* `Parse.tree_derives`: every completed item of a finished chart has such a tree.
-/
namespace TabularParsing

variable {W : Type}

namespace Tree

/-- The weight of a branch. A leaf has none. -/
def weight? : Tree W → Option W
  | leaf _ _ => none
  | node _ w _ _ => some w

/-- The weights of the branches among some trees, multiplied one after the other onto a first
factor. -/
def product [Mul W] (w : W) (ts : List (Tree W)) : W := ts.foldl (fun x t => times t.weight? x) w

@[simp] theorem product_nil [Mul W] (w : W) : product w [] = w := rfl

@[simp] theorem product_cons [Mul W] (w : W) (t : Tree W) (ts : List (Tree W)) :
    product w (t :: ts) = product (times t.weight? w) ts := rfl

section Derivation

variable [Mul W] [LE W]

mutual

/-- A tree derives a production over a part of the input. A word that is no category is a leaf, a
listed word is the only leaf below its category, and any other branch is for an alternative of its
symbol, the heaviest of those with the same productions. It weighs the same as the weight of the
alternative multiplied by those of the branches below, from the left. -/
inductive Derivation (same : W → W → Prop) (g : WeightedGrammar W) (tokens : List String) :
    Production → Nat → Nat → Tree W → Prop where
  | word {s : String} {k : Nat} : g.isCategory s = false → tokens[k]? = some s →
      Derivation same g tokens (.terminal s) k (k + 1) (.leaf s ⟨k, k + 1⟩)
  | listed {p : Production} {word : String} {w : W} {k : Nat} :
      g.wordWeight? p.symbol word = some w → tokens[k]? = some word →
      Derivation same g tokens p k (k + 1)
        (.node p.symbol w ⟨k, k + 1⟩ [.leaf word ⟨k, k + 1⟩])
  | alternative {s : String} {r : WeightedRule W} {i k : Nat} {w : W} {ts : List (Tree W)} :
      g.isCategory s = false → r ∈ g.alternatives s →
      (∀ q ∈ g.alternatives s, q.productions = r.productions → q.weight ≤ r.weight) →
      Derivations same g tokens r.productions i k ts → same w (product r.weight ts) →
      Derivation same g tokens (.nonterminal s) i k (.node s w ⟨i, k⟩ ts)

/-- Trees derive productions one after the other, each from where the one before stopped. -/
inductive Derivations (same : W → W → Prop) (g : WeightedGrammar W) (tokens : List String) :
    List Production → Nat → Nat → List (Tree W) → Prop where
  | nil {k : Nat} : Derivations same g tokens [] k k []
  | cons {p : Production} {ps : List Production} {i m k : Nat} {t : Tree W}
      {ts : List (Tree W)} : Derivation same g tokens p i m t →
      Derivations same g tokens ps m k ts → Derivations same g tokens (p :: ps) i k (t :: ts)

end

end Derivation

end Tree

namespace Earley

variable [Mul W] {g : WeightedGrammar W} {tokens : List String} {c : Chart W}

/-! ## What a completed item is for -/

/-- A completed item is for a listed word, or for the heaviest alternative of its symbol with its
productions, and weighs what its children make that. -/
inductive Accounted [LE W] (same : W → W → Prop) (g : WeightedGrammar W) (tokens : List String)
    (c : Chart W) : Item W → Prop where
  | listed {k : Nat} {category word : String} {w : W} : tokens[k]? = some word →
      g.wordWeight? category word = some w → g.isCategory word = false →
      Accounted same g tokens c (.listed k category word w)
  | alternative {i : Item W} {r : WeightedRule W} : g.isCategory i.symbol = false →
      r ∈ g.alternatives i.symbol → r.productions = i.dotted.rule.productions →
      (∀ q ∈ g.alternatives i.symbol, q.productions = r.productions → q.weight ≤ r.weight) →
      Tiles g tokens c i.dotted.rule.productions i.children i.origin i.stop →
      same i.weight (c.product r.weight i.children) → Accounted same g tokens c i

section Accounted

variable [Zero W] [One W] [LE W] [LT W] {same : W → W → Prop}

theorem Saturated.accounted (hu : UnitProducts W)
    (hsame : ∀ {x y : W}, InUnit x → InUnit y → x ≤ y → y ≤ x → same x y)
    (hcons : g.Consistent)
    (hwords : ∀ {category word : String} {w : W}, g.wordWeight? category word = some w →
      g.isCategory word = false)
    (h : Saturated (fun w => InUnit w) (fun x y => x ≤ y) g tokens c)
    (hreach : Reachable g tokens c) {place : Nat} {i : Item W} (hi : c.items[place]? = some i)
    (hend : i.dotted.next? = none) (hgoal : i.forGoal = false) :
    Accounted same g tokens c i := by
  have htiled := hreach.tiled hcons hi
  cases hreach.sound hcons hi with
  | listed hword hw => exact .listed hword hw (hwords hw)
  | spelled hstems _ =>
    cases hstems with
    | goal hforGoal => rw [hgoal] at hforGoal; cases hforGoal
    | alternative _ hrule hcategory _ =>
      have htiles : Tiles g tokens c i.dotted.rule.productions i.children i.origin i.stop := by
        cases htiled with
        | tiles htiles =>
          rwa [List.take_of_length_le (List.getElem?_eq_none_iff.1 hend)] at htiles
        | listed _ hlisted => exact absurd (hlisted.symm.trans hcategory) (by decide)
      -- among the alternatives with these productions one is heaviest
      have hself : i.dotted.rule ∈
          (g.alternatives i.symbol).filter (·.productions == i.dotted.rule.productions) :=
        List.mem_filter.2 ⟨hrule, beq_self_eq_true _⟩
      obtain ⟨r, hr, hgreatest⟩ := hu.total.exists_greatest (f := WeightedRule.weight)
        (List.ne_nil_of_mem hself) fun q hq => h.weightsIn.rules (List.mem_filter.1 hq).1
      obtain ⟨hmem, hproductions⟩ := List.mem_filter.1 hr
      replace hproductions : r.productions = i.dotted.rule.productions := beq_iff_eq.1 hproductions
      have hwr := h.weightsIn.rules hmem
      have hle := hgreatest i.dotted.rule hself
      have hupper : i.weight ≤ c.product r.weight i.children :=
        (hreach.bounds hu h.weightsIn hi).le_product hu h.weights (h.weights hi) hwr hle
      have hlower : c.product r.weight i.children ≤ i.weight :=
        h.product_le hreach hi hend hgoal hcategory htiles hmem hproductions
      refine .alternative hcategory hmem hproductions (fun q hq hqr => ?_) htiles ?_
      · exact hgreatest q (List.mem_filter.2 ⟨hq, beq_iff_eq.2 (hqr.trans hproductions)⟩)
      · exact hsame (h.weights hi) (Chart.inUnit_product hu h.weights hwr) hupper hlower

end Accounted

/-! ## The tree of a completed item -/

namespace Chart

omit [Mul W] in
theorem TreeAt.weight?_eq {place : Nat} {t : Tree W} {i : Item W}
    (hi : c.items[place]? = some i) (h : c.TreeAt g.isCategory place t) :
    t.weight? = some i.weight := by
  cases h with
  | node hi' _ =>
    obtain rfl := Option.some.inj (hi.symm.trans hi')
    rfl

/-- The trees below an item weigh what its children weigh. -/
theorem TreesBelow.product_eq {ps : List Production} {places : List Nat} {k stop : Nat}
    {ts : List (Tree W)} {w : W} (htiles : Tiles g tokens c ps places k stop)
    (h : c.TreesBelow g.isCategory ps places k ts) : Tree.product w ts = c.product w places := by
  induction htiles generalizing ts w with
  | nil =>
    cases h
    rfl
  | word hliteral _ _ ih =>
    cases h with
    | leaf _ hbelow =>
      rw [Tree.product_cons]
      exact ih hbelow
    | childless hnot => rw [hliteral] at hnot; cases hnot
    | child hnot => rw [hliteral] at hnot; cases hnot
  | item hliteral hedge _ _ _ _ _ ih =>
    cases h with
    | leaf hnot => rw [hliteral] at hnot; cases hnot
    | child _ hchild hat hbelow =>
      obtain rfl := Option.some.inj ((edge?_of_item hchild).symm.trans hedge)
      rw [product_cons hchild, ← ih hbelow, Tree.product_cons, hat.weight?_eq hchild]
      rfl

omit [Mul W] in
/-- Below an item for a listed word that is no category stands the word. -/
theorem TreesBelow.eq_leaf {word : String} {k : Nat} {ts : List (Tree W)}
    (hword : g.isCategory word = false)
    (h : c.TreesBelow g.isCategory [.terminal word] [] k ts) : ts = [.leaf word ⟨k, k + 1⟩] := by
  have hliteral : (Production.terminal word).isLiteral g.isCategory = true :=
    Production.isLiteral_iff.2 ⟨rfl, hword⟩
  cases h with
  | leaf _ hbelow =>
    cases hbelow
    rfl
  | childless hnot => rw [hliteral] at hnot; cases hnot

variable [LE W] {same : W → W → Prop}

mutual

/-- The tree of a completed item derives what is spelled like it, over what the item covers. -/
theorem TreeAt.derivation
    (hc : ∀ {place : Nat} {i : Item W}, c.items[place]? = some i → i.dotted.next? = none →
      i.forGoal = false → Accounted same g tokens c i)
    {place : Nat} {t : Tree W} {i : Item W} {p : Production} (hi : c.items[place]? = some i)
    (hend : i.dotted.next? = none) (hgoal : i.forGoal = false) (hsymbol : i.symbol = p.symbol)
    (hp : p.isLiteral g.isCategory = false) :
    c.TreeAt g.isCategory place t → Tree.Derivation same g tokens p i.origin i.stop t
  | .node hi' hbelow => by
    obtain rfl := Option.some.inj (hi.symm.trans hi')
    rw [List.take_of_length_le (List.getElem?_eq_none_iff.1 hend)] at hbelow
    cases hc hi hend hgoal with
    | listed hword hw hnot =>
      rw [hbelow.eq_leaf hnot, hsymbol]
      exact .listed (hsymbol ▸ hw) hword
    | alternative hcategory hrule hproductions hgreatest htiles hweight =>
      have hbranches := TreesBelow.derivations hc htiles hbelow
      rw [← hbelow.product_eq htiles] at hweight
      cases p with
      | nonterminal s =>
        obtain rfl : i.symbol = s := hsymbol
        exact .alternative hcategory hrule hgreatest (hproductions ▸ hbranches) hweight
      | terminal s =>
        obtain rfl : i.symbol = s := hsymbol
        rw [Production.isLiteral_iff.2 ⟨rfl, hcategory⟩] at hp
        cases hp

/-- The trees below an item derive what tiles it. -/
theorem TreesBelow.derivations
    (hc : ∀ {place : Nat} {i : Item W}, c.items[place]? = some i → i.dotted.next? = none →
      i.forGoal = false → Accounted same g tokens c i)
    {ps : List Production} {places : List Nat} {k stop : Nat} {ts : List (Tree W)}
    (htiles : Tiles g tokens c ps places k stop) :
    c.TreesBelow g.isCategory ps places k ts → Tree.Derivations same g tokens ps k stop ts
  | .nil => by
    cases htiles
    exact .nil
  | .leaf (p := p) hliteral hbelow => by
    obtain ⟨hterminal, hcategory⟩ := Production.isLiteral_iff.1 hliteral
    cases htiles with
    | word _ hword htiles =>
      cases p with
      | terminal s => exact .cons (.word hcategory hword) (TreesBelow.derivations hc htiles hbelow)
      | nonterminal s => cases hterminal
    | item hliteral' => rw [hliteral] at hliteral'; cases hliteral'
  | .childless hliteral => by
    cases htiles with
    | word hliteral' => rw [hliteral] at hliteral'; cases hliteral'
  | .child hliteral hchild hat hbelow => by
    cases htiles with
    | word hliteral' => rw [hliteral] at hliteral'; cases hliteral'
    | item _ hedge hsymbol hend hgoal _ htiles =>
      obtain rfl := Option.some.inj ((edge?_of_item hchild).symm.trans hedge)
      exact .cons (TreeAt.derivation hc hchild hend hgoal hsymbol hliteral hat)
        (TreesBelow.derivations hc htiles hbelow)

end

end Chart

/-! ## Finished charts -/

variable [Zero W] [One W] [LE W] [LT W] [DecidableLT W]

/-- With weights between zero and one a parse ends, and every completed item of its chart but the
goal has a tree with nothing left out, which derives the symbol of the item over what the item
covers. Weights are the same where neither is less. -/
theorem Parse.tree_derives (hu : UnitProducts W) {same : W → W → Prop}
    (hsame : ∀ {x y : W}, InUnit x → InUnit y → x ≤ y → y ≤ x → same x y) (hg : g.Classified)
    (hw : g.WeightsIn fun w => InUnit w)
    (hwords : ∀ {category word : String} {w : W}, g.wordWeight? category word = some w →
      g.isCategory word = false) (tokens : List String) :
    (∀ limit, turnBound g tokens ≤ limit → ∃ p, Parse.ofTokens limit g tokens = .ok p) ∧
    ∀ limit p, Parse.ofTokens limit g tokens = .ok p → ∀ (place : Nat) (i : Item W),
      p.chart.items[place]? = some i → i.isComplete = true → i.forGoal = false →
      ∃ ts, p.chart.tree g place = .ok (.node i.symbol i.weight ⟨i.origin, i.stop⟩ ts) ∧
        p.chart.TreeAt g.isCategory place (.node i.symbol i.weight ⟨i.origin, i.stop⟩ ts) ∧
        Tree.Derivation same g tokens (.nonterminal i.symbol) i.origin i.stop
          (.node i.symbol i.weight ⟨i.origin, i.stop⟩ ts) := by
  constructor
  · intro limit hlimit
    obtain ⟨c, hp, -⟩ :=
      exists_ofTokens hu.ranking hw (fillChart_ne_outOfSteps hu hw hlimit)
    exact ⟨_, hp⟩
  · intro limit p hp place i hi hcomplete hgoal
    obtain ⟨c, rfl, hreach, hsaturated⟩ := exists_saturated hu.ranking hw hp
    have hend : i.dotted.next? = none :=
      DottedRule.isActive_eq_false_iff.1 (by simpa [Item.isComplete] using hcomplete)
    obtain ⟨t, ht, hat⟩ := hreach.exists_tree hu hw hi
    have hderives : Tree.Derivation same g tokens (.nonterminal i.symbol) i.origin i.stop t := by
      refine hat.derivation (fun hj hjend hjgoal => ?_) hi hend hgoal rfl rfl
      exact hsaturated.accounted hu hsame hg.consistent hwords hreach hj hjend hjgoal
    cases hat with
    | node hi' hbelow =>
      obtain rfl := Option.some.inj (hi.symm.trans hi')
      exact ⟨_, ht, .node hi hbelow, hderives⟩

/-- The phrase starts by way of a unit cycle and an alternative that is listed twice. -/
theorem Parse.tree_derives_nounPhrases :
    (UnitProducts ℚ ∧ nounPhrases.Classified ∧ (nounPhrases.WeightsIn fun w => InUnit w) ∧
      ∀ {category word : String} {w : ℚ}, nounPhrases.wordWeight? category word = some w →
        nounPhrases.isCategory word = false) ∧
    ∃ p, Parse.ofTokens 40 nounPhrases ["a", "dog"] = .ok p ∧
      ∃ (place : Nat) (i : Item ℚ), p.chart.items[place]? = some i ∧ i.isComplete = true ∧
        i.symbol = "P" ∧ i.origin = 0 ∧ i.stop = 2 ∧ i.weight = 3 / 16 ∧
        ∃ ts, p.chart.tree nounPhrases place = .ok (.node "P" (3 / 16) ⟨0, 2⟩ ts) ∧
          Tree.Derivation Eq nounPhrases ["a", "dog"] (.nonterminal "P") 0 2
            (.node "P" (3 / 16) ⟨0, 2⟩ ts) := by
  have hwords : ∀ {category word : String} {w : ℚ}, nounPhrases.wordWeight? category word = some w →
      nounPhrases.isCategory word = false := by
    intro category word w hw
    rw [nounPhrases, WeightedGrammar.wordWeight?_listWord] at hw
    split at hw
    · rename_i heq
      rw [← heq.2]
      decide +kernel
    · cases hw
  have hrun : ((Parse.ofTokens 40 nounPhrases ["a", "dog"]).toOption.any fun p =>
      p.chart.items.any fun i => i.isComplete && !i.forGoal && i.symbol == "P" && i.origin == 0 &&
        i.stop == 2 && i.weight == 3 / 16) = true := by decide +kernel
  simp only [Option.any_eq_true, toOption_eq_some_iff, Array.any_eq_true, Bool.and_eq_true,
    beq_iff_eq, Bool.not_eq_true'] at hrun
  obtain ⟨p, hp, place, hplace, ⟨⟨⟨⟨hcomplete, hgoal⟩, hsymbol⟩, horigin⟩, hstop⟩, hweight⟩ := hrun
  have hi := Array.getElem?_eq_getElem hplace
  have hsame {x y : ℚ} (_ : InUnit x) (_ : InUnit y) : x ≤ y → y ≤ x → x = y := le_antisymm
  obtain ⟨ts, ht, -, hderives⟩ := (Parse.tree_derives unitProducts_exact hsame
    classified_nounPhrases weightsIn_nounPhrases hwords _).2 40 p hp place _ hi hcomplete hgoal
  rw [hsymbol, hweight, horigin, hstop] at ht hderives
  exact ⟨⟨unitProducts_exact, classified_nounPhrases, weightsIn_nounPhrases, hwords⟩, p, hp, place,
    _, hi, hcomplete, hsymbol, horigin, hstop, hweight, ts, ht, hderives⟩

end Earley

end TabularParsing
