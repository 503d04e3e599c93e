import TabularParsing.Proofs.Earley.Soundness
import TabularParsing.Proofs.Earley.Tree

/-!
# Children tile their parent

What stands before the dot of an item covers its part of the input without gaps: a literal word
covers one position, every other production the part of the next child, which is completed and
spelled like the production. An item for a listed word is different: its production is a word that
was looked up, so nothing lies below it.

## Main definitions

* `Tiles`: productions and places of children cover a part of the input.
* `Tiled`: what is before the dot of an item does.

## Main statement

* `Reachable.tiled`
-/
namespace TabularParsing.Earley

variable {W : Type}

/-- Productions cover a part of the input, the literal ones by a word, the others by the completed
items at these places. -/
inductive Tiles (g : WeightedGrammar W) (tokens : List String) (c : Chart W) :
    List Production → List Nat → Nat → Nat → Prop where
  | nil {k : Nat} : Tiles g tokens c [] [] k k
  | word {p : Production} {ps : List Production} {places : List Nat} {k stop : Nat} :
      p.isLiteral g.isCategory = true → tokens[k]? = some p.symbol →
      Tiles g tokens c ps places (k + 1) stop → Tiles g tokens c (p :: ps) places k stop
  | item {p : Production} {ps : List Production} {q : Nat} {places : List Nat} {e : Edge}
      {stop : Nat} : p.isLiteral g.isCategory = false → c.edge? q = some e →
      e.symbol = p.symbol → e.next? = none → e.forGoal = false → e.origin < e.stop →
      Tiles g tokens c ps places e.stop stop →
      Tiles g tokens c (p :: ps) (q :: places) e.origin stop

/-- What stands before the dot covers the part of the input that the item covers, or the item is
for a listed word. -/
inductive Tiled (g : WeightedGrammar W) (tokens : List String) (c : Chart W) : Item W → Prop where
  | tiles {i : Item W} :
      Tiles g tokens c (i.dotted.rule.productions.take i.dotted.dot) i.children i.origin i.stop →
      Tiled g tokens c i
  | listed {k : Nat} {category word : String} {w : W} : tokens[k]? = some word →
      g.isCategory category = true → Tiled g tokens c (.listed k category word w)

variable {g : WeightedGrammar W} {tokens : List String} {c c' : Chart W}

namespace Tiles

variable {ps qs : List Production} {places places' : List Nat} {k m stop : Nat}

theorem append (h : Tiles g tokens c ps places k m) (h' : Tiles g tokens c qs places' m stop) :
    Tiles g tokens c (ps ++ qs) (places ++ places') k stop := by
  induction h with
  | nil => exact h'
  | word hliteral hword _ ih => exact .word hliteral hword (ih h')
  | item hliteral hedge hsymbol hnext hgoal hlt _ ih =>
    exact .item hliteral hedge hsymbol hnext hgoal hlt (ih h')

theorem le (h : Tiles g tokens c ps places k stop) : k ≤ stop := by
  induction h with
  | nil => exact Nat.le_refl _
  | word _ _ _ ih => exact Nat.le_of_succ_le ih
  | item _ _ _ _ _ hlt _ ih => exact Nat.le_trans (Nat.le_of_lt hlt) ih

/-- Children keep their edges, so they go on to tile their parent. -/
theorem of_edges (h : Tiles g tokens c ps places k stop)
    (hedges : ∀ {q : Nat} {e : Edge}, c.edge? q = some e → c'.edge? q = some e) :
    Tiles g tokens c' ps places k stop := by
  induction h with
  | nil => exact .nil
  | word hliteral hword _ ih => exact .word hliteral hword ih
  | item hliteral hedge hsymbol hnext hgoal hlt _ ih =>
    exact .item hliteral (hedges hedge) hsymbol hnext hgoal hlt ih

/-- What one production that is not literal covers, one item covers. -/
theorem exists_of_singleton {p : Production} (hp : p.isLiteral g.isCategory = false)
    (h : Tiles g tokens c [p] places k stop) : ∃ (q : Nat) (i : Item W), places = [q] ∧
      c.items[q]? = some i ∧ i.symbol = p.symbol ∧ i.origin = k ∧ i.stop = stop := by
  cases h with
  | word hliteral => rw [hp] at hliteral; cases hliteral
  | @item _ _ q _ _ _ _ hedge hsymbol _ _ _ hrest =>
    cases hrest
    obtain ⟨i, hi, rfl⟩ := Option.map_eq_some_iff.1 hedge
    exact ⟨q, i, rfl, hi, hsymbol, rfl, rfl⟩

/-- Where one literal word is covered there is no item. -/
theorem places_eq_nil {p : Production} (hp : p.isLiteral g.isCategory = true)
    (h : Tiles g tokens c [p] places k stop) : places = [] := by
  cases h with
  | word _ _ hrest => cases hrest; rfl
  | item hliteral => rw [hp] at hliteral; cases hliteral

end Tiles

theorem Tiled.of_edges {i : Item W} (h : Tiled g tokens c i)
    (hedges : ∀ {q : Nat} {e : Edge}, c.edge? q = some e → c'.edge? q = some e) :
    Tiled g tokens c' i := by
  cases h with
  | tiles h => exact .tiles (h.of_edges hedges)
  | listed hword hcategory => exact .listed hword hcategory

/-- What an item that waits covers. -/
theorem Tiled.tiles_of_next? {i : Item W} {p : Production} (h : Tiled g tokens c i)
    (hnext : i.dotted.next? = some p) :
    Tiles g tokens c (i.dotted.rule.productions.take i.dotted.dot) i.children i.origin i.stop := by
  cases h with
  | tiles h => exact h
  | listed => cases hnext

variable [One W] [Mul W]

/-- What completed items are spelled like is not literal. -/
theorem Sound.isLiteral_eq_false {i : Item W} {p : Production} (hcons : g.Consistent)
    (h : Sound g tokens i) (hgoal : i.forGoal = false) (huses : g.Uses p)
    (hp : p.symbol = i.symbol) : p.isLiteral g.isCategory = false := by
  cases p with
  | nonterminal s => rfl
  | terminal s =>
    obtain rfl : s = i.symbol := hp
    cases h with
    | spelled hstems _ =>
      cases hstems with
      | goal hforGoal => rw [hgoal] at hforGoal; cases hforGoal
      | alternative _ hrule hcategory hused =>
        exact absurd huses (hcons hcategory (List.ne_nil_of_mem hrule) hused)
    | listed _ hw =>
      have hcategory := WeightedGrammar.isCategory_of_wordWeight? hw
      simp [Production.isLiteral, Production.symbol, Item.symbol, Item.listed, hcategory]

theorem Infers.tiled {place : Nat} {i j : Item W} (hcons : g.Consistent)
    (hproper : c.All Item.Proper) (hsound : c.All (Sound g tokens))
    (hc : c.All (Tiled g tokens c)) (hi : c.items[place]? = some i)
    (h : Infers g tokens c place i j) : Tiled g tokens c j := by
  cases h with
  | predicted => exact .tiles .nil
  | listed _ hword hw =>
    exact .listed hword (WeightedGrammar.isCategory_of_wordWeight? hw)
  | @literal p hnext hterminal hcategory hword =>
    refine .tiles ?_
    have hliteral : p.isLiteral g.isCategory = true := by
      simp [Production.isLiteral, hterminal, hcategory]
    have htiles := ((hc hi).tiles_of_next? hnext).append (.word hliteral hword .nil)
    rw [List.append_nil, ← DottedRule.take_advance hnext] at htiles
    exact htiles
  | @completed q waiting p hnext hgoal hw hstop hwnext hsymbol =>
    refine .tiles ?_
    have huses := ((hsound hw).stems hwnext).1.uses hwnext
    have hliteral := (hsound hi).isLiteral_eq_false hcons hgoal huses hsymbol
    have hone : Tiles g tokens c [p] [place] i.origin i.stop :=
      .item hliteral (Chart.edge?_of_item hi) hsymbol.symm hnext hgoal
        ((hproper hi).lt_of_next? hnext) .nil
    have htiles := ((hc hw).tiles_of_next? hwnext).append (hstop ▸ hone)
    rw [← DottedRule.take_advance hwnext] at htiles
    exact htiles

/-- Every item of a reachable chart is tiled by its children. -/
theorem Reachable.tiled [LT W] (hcons : g.Consistent) (h : Reachable g tokens c) :
    c.All (Tiled g tokens c) := by
  induction h with
  | initial =>
    intro p i hi
    rw [(getElem?_items_initialChart.1 hi).2]
    exact .tiles .nil
  | @turn c c' place i js improved hreach hi hadds hjs ih =>
    have hedges {q : Nat} {e : Edge} (h : c.edge? q = some e) : c'.edge? q = some e := by
      obtain ⟨x, hx, -⟩ := Option.map_eq_some_iff.1 h
      rw [hadds.edge?_eq hx, h]
    refine hadds.all (fun _ _ hx => (ih hx).of_edges hedges) fun j hj => ?_
    exact (((hjs j).1 hj).tiled hcons hreach.proper (hreach.sound hcons) ih hi).of_edges hedges

end TabularParsing.Earley
