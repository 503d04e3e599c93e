import TabularParsing.Proofs.Earley.Reachable
import TabularParsing.Proofs.Segment
import TabularParsing.Proofs.Weighing

/-!
# Every item stands for a derivation

The weight of an item is the weight of a derivation, by the productions before its dot, of the
words it covers. Completion moves dots by the spelling of a symbol alone, so a symbol must not be
used both as a word and as a nonterminal, unless it is a category or has no alternatives.

## Main definitions

* `WeightedGrammar.Classified`: symbols are told apart by their first letters.
* `WeightedGrammar.Consistent`: no symbol is used both ways.
* `Earley.Sound`: what an item stands for.

## Main statement

* `Reachable.sound`
-/
namespace TabularParsing

variable {W : Type}

namespace WeightedGrammar

/-- The productions of all rules are told apart by their first letters. -/
def Classified (g : WeightedGrammar W) : Prop :=
  ∀ ⦃symbol : String⦄, ∀ r ∈ g.alternatives symbol, ∀ p ∈ r.productions, p = .ofSymbol p.symbol

/-- The productions that a parse can wait for. -/
def Uses (g : WeightedGrammar W) (p : Production) : Prop :=
  p = .ofSymbol g.start ∨ ∃ symbol, ∃ r ∈ g.alternatives symbol, p ∈ r.productions

/-- No symbol that has alternatives and is no category is used both as a nonterminal and as a
word. -/
def Consistent (g : WeightedGrammar W) : Prop :=
  ∀ ⦃symbol : String⦄, g.isCategory symbol = false → g.alternatives symbol ≠ [] →
    g.Uses (.nonterminal symbol) → ¬g.Uses (.terminal symbol)

theorem Classified.consistent {g : WeightedGrammar W} (h : g.Classified) : g.Consistent := by
  have hof {p : Production} (hp : g.Uses p) : p = .ofSymbol p.symbol := by
    rcases hp with rfl | ⟨symbol, r, hr, hp⟩
    · rw [Production.symbol_ofSymbol]
    · exact h r hr p hp
  intro symbol _ _ hnonterminal hterminal
  cases (hof hterminal).trans (hof hnonterminal).symm

theorem classified_empty (start : String) : (empty start : WeightedGrammar W).Classified := by
  intro symbol r hr
  rw [alternatives_empty] at hr
  cases hr

theorem Classified.addFilled {g : WeightedGrammar W} (h : g.Classified) {r : WeightedRule W}
    (hne : r.productions ≠ []) (hr : ∀ p ∈ r.productions, p = .ofSymbol p.symbol) :
    (g.addFilled r hne).Classified := by
  intro symbol q hq
  rw [alternatives_addFilled, List.mem_append] at hq
  rcases hq with hq | hq
  · exact h q hq
  · split at hq
    · rwa [List.mem_singleton.1 hq]
    · cases hq

theorem Classified.addSymbols {g g' : WeightedGrammar W} (h : g.Classified) {lhs : String}
    {symbols : List String} {w : W} (hadd : g.addSymbols lhs symbols w = .ok g') :
    g'.Classified := by
  obtain ⟨hne, rfl⟩ := exists_addFilled_of_addSymbols hadd
  refine h.addFilled hne fun p hp => ?_
  obtain ⟨s, -, rfl⟩ := List.mem_map.1 hp
  rw [Production.symbol_ofSymbol]

theorem Classified.listWord {g : WeightedGrammar W} (h : g.Classified) (category word : String)
    (w : W) : (g.listWord category word w).Classified := by
  intro symbol r hr
  rw [alternatives_listWord] at hr
  exact h r hr

end WeightedGrammar

namespace Earley

/-- Where the rule of an item comes from: it is the goal rule, or an alternative of a symbol that
is used. -/
inductive Stems [One W] (g : WeightedGrammar W) (i : Item W) : Prop where
  | goal : i.forGoal = true → i.origin = 0 →
      i.dotted.rule = ⟨goalSymbol, [.ofSymbol g.start], 1⟩ → Stems g i
  | alternative : i.forGoal = false → i.dotted.rule ∈ g.alternatives i.symbol →
      g.isCategory i.symbol = false → g.Uses (.nonterminal i.symbol) → Stems g i

/-- What an item stands for: a derivation by the productions before the dot, or a listed word. -/
inductive Sound [One W] [Mul W] (g : WeightedGrammar W) (tokens : List String) :
    Item W → Prop where
  | spelled {i : Item W} : Stems g i →
      g.WeighsAll i.dotted.rule.weight (i.dotted.rule.productions.take i.dotted.dot)
        (segment tokens i.origin i.stop) i.weight → Sound g tokens i
  | listed {k : Nat} {category word : String} {w : W} : tokens[k]? = some word →
      g.wordWeight? category word = some w → Sound g tokens (.listed k category word w)

variable [One W] {g : WeightedGrammar W} {tokens : List String}

theorem Stems.uses {i : Item W} {p : Production} (h : Stems g i)
    (hnext : i.dotted.next? = some p) : g.Uses p := by
  have hp := List.mem_of_getElem? hnext
  cases h with
  | goal _ _ hrule =>
    rw [hrule, List.mem_singleton] at hp
    exact .inl hp
  | alternative _ hrule _ _ => exact .inr ⟨_, _, hrule, hp⟩

variable [Mul W]

theorem Sound.stems {i : Item W} {p : Production} (h : Sound g tokens i)
    (hnext : i.dotted.next? = some p) : Stems g i ∧
      g.WeighsAll i.dotted.rule.weight (i.dotted.rule.productions.take i.dotted.dot)
        (segment tokens i.origin i.stop) i.weight := by
  cases h with
  | spelled hstems hweighs => exact ⟨hstems, hweighs⟩
  | listed => cases hnext

/-- A completed item weighs a derivation of whatever is used and spelled like its symbol. -/
theorem Sound.weighs {i : Item W} {p : Production} (hcons : g.Consistent)
    (h : Sound g tokens i) (hnext : i.dotted.next? = none) (hgoal : i.forGoal = false)
    (huses : g.Uses p) (hp : p.symbol = i.symbol) :
    g.Weighs p (segment tokens i.origin i.stop) (some i.weight) := by
  cases h with
  | spelled hstems hweighs =>
    rw [List.take_of_length_le (List.getElem?_eq_none_iff.1 hnext)] at hweighs
    cases hstems with
    | goal hforGoal => rw [hgoal] at hforGoal; cases hforGoal
    | alternative _ hrule hcategory hused =>
      have hne := List.ne_nil_of_mem hrule
      cases p with
      | terminal s =>
        obtain rfl : s = i.symbol := hp
        exact absurd huses (hcons hcategory hne hused)
      | nonterminal s =>
        obtain rfl : s = i.symbol := hp
        exact .alternative hcategory hrule hweighs
  | listed hword hw =>
    have hsegment := segment_succ hword
    simp only [Item.listed] at hp ⊢
    rw [hsegment]
    exact .listed (hp.symm ▸ hw)

/-- Moving the dot over a production extends the derivation by one of that production. -/
theorem Sound.advance {i j : Item W} {p : Production} (h : Sound g tokens i)
    (hnext : i.dotted.next? = some p) (hdotted : j.dotted = i.dotted.advance)
    (horigin : j.origin = i.origin) (hgoal : j.forGoal = i.forGoal)
    (hstart : i.origin ≤ i.stop) (hstop : i.stop ≤ j.stop)
    {y : Option W} (hweighs : g.Weighs p (segment tokens i.stop j.stop) y)
    (hweight : j.weight = times y i.weight) : Sound g tokens j := by
  obtain ⟨hstems, hall⟩ := h.stems hnext
  have hrule : j.dotted.rule = i.dotted.rule := by rw [hdotted]; rfl
  have hsymbol : j.symbol = i.symbol := congrArg WeightedRule.symbol hrule
  have htake : j.dotted.rule.productions.take j.dotted.dot =
      i.dotted.rule.productions.take i.dotted.dot ++ [p] := by
    rw [hdotted, DottedRule.take_advance hnext]
  refine .spelled ?_ ?_
  · cases hstems with
    | goal h₁ h₂ h₃ => exact .goal (hgoal.trans h₁) (horigin.trans h₂) (hrule.trans h₃)
    | alternative h₁ h₂ h₃ h₄ =>
      rw [← hsymbol] at h₂ h₃ h₄
      exact .alternative (hgoal.trans h₁) (hrule ▸ h₂) h₃ h₄
  · rw [htake, hrule, horigin, hweight, ← segment_append tokens hstart hstop]
    exact hall.snoc hweighs

theorem Infers.sound {c : Chart W} {place : Nat} {i j : Item W} (hcons : g.Consistent)
    (hc : c.All fun i => i.Proper ∧ Sound g tokens i) (hi : i.Proper ∧ Sound g tokens i)
    (h : Infers g tokens c place i j) : Sound g tokens j := by
  cases h with
  | @predicted p r hnext hterminal hcategory hrule =>
    have hsymbol : (Item.predicted i.stop r).symbol = p.symbol := (g.filed _ _ hrule).1
    have huses := (hi.2.stems hnext).1.uses hnext
    cases p with
    | terminal s => cases hterminal
    | nonterminal s =>
      refine .spelled (.alternative rfl ?_ ?_ ?_) ?_
      · rw [hsymbol]
        exact hrule
      · rw [hsymbol]
        exact hcategory
      · rw [hsymbol]
        exact huses
      · simp only [Item.predicted, DottedRule.ofRule, List.take_zero, segment_self]
        exact .nil
  | listed _ hword hw => exact .listed hword hw
  | @literal p hnext hterminal hcategory hword =>
    have hweighs : g.Weighs p (segment tokens i.stop (i.stop + 1)) none := by
      rw [segment_succ hword]
      cases p with
      | terminal s => exact .literal hcategory
      | nonterminal s => cases hterminal
    exact hi.2.advance (j := i.overWord) hnext rfl rfl rfl hi.1.origin_le (Nat.le_succ _) hweighs
      rfl
  | @completed q waiting p hnext hgoal hw hstop hwnext hsymbol =>
    have huses := ((hc hw).2.stems hwnext).1.uses hwnext
    have hweighs := hi.2.weighs hcons hnext hgoal huses hsymbol
    rw [← hstop] at hweighs
    exact (hc hw).2.advance (j := waiting.overItem place i) hwnext rfl rfl rfl (hc hw).1.origin_le
      (hstop ▸ hi.1.origin_le) hweighs rfl

theorem sound_goal (g : WeightedGrammar W) (tokens : List String) :
    Sound g tokens (.goal g) := by
  refine .spelled (.goal rfl rfl rfl) ?_
  simp only [Item.goal, DottedRule.ofRule, List.take_zero, segment_self]
  exact .nil

/-- Every item of a reachable chart stands for a derivation. -/
theorem Reachable.sound [LT W] {c : Chart W} (hcons : g.Consistent) (h : Reachable g tokens c) :
    c.All (Sound g tokens) := by
  have hall : c.All fun i => i.Proper ∧ Sound g tokens i :=
    h.all ⟨Item.proper_goal g, sound_goal g tokens⟩ fun hc hi hj =>
      ⟨hj.proper (fun _ _ hw => (hc hw).1) hi.1, hj.sound hcons hc hi⟩
  exact fun _ _ hi => (hall hi).2

end Earley

end TabularParsing
