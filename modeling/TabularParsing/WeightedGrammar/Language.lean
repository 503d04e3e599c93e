import TabularParsing.WeightedGrammar.Basic

/-!
# What a weighted grammar derives

A category of the lexicon derives the words it lists, whatever rules it has besides. Any other
terminal derives itself. Any other nonterminal derives what one of its alternatives derives,
production by production.

## Main statements

* `derives_iff_weighs`: weighing leaves nothing out.
-/
namespace TabularParsing.WeightedGrammar

variable {W : Type}

mutual

/-- A production derives words. -/
inductive Derives (g : WeightedGrammar W) : Production → List String → Prop where
  | listed {p : Production} {word : String} {w : W} :
      g.wordWeight? p.symbol word = some w → Derives g p [word]
  | literal {s : String} : g.isCategory s = false → Derives g (.terminal s) [s]
  | alternative {s : String} {r : WeightedRule W} {ws : List String} :
      g.isCategory s = false → r ∈ g.alternatives s → DerivesAll g r.productions ws →
      Derives g (.nonterminal s) ws

/-- Productions derive words one after the other. -/
inductive DerivesAll (g : WeightedGrammar W) : List Production → List String → Prop where
  | nil : DerivesAll g [] []
  | cons {p : Production} {ps : List Production} {us vs : List String} :
      Derives g p us → DerivesAll g ps vs → DerivesAll g (p :: ps) (us ++ vs)

end

mutual

/-- A derivation and its weight: a listed word weighs what the lexicon says, a literal word
nothing, an alternative its own weight times those of its productions. -/
inductive Weighs [Mul W] (g : WeightedGrammar W) :
    Production → List String → Option W → Prop where
  | listed {p : Production} {word : String} {w : W} :
      g.wordWeight? p.symbol word = some w → Weighs g p [word] (some w)
  | literal {s : String} : g.isCategory s = false → Weighs g (.terminal s) [s] none
  | alternative {s : String} {r : WeightedRule W} {ws : List String} {w : W} :
      g.isCategory s = false → r ∈ g.alternatives s →
      WeighsAll g r.weight r.productions ws w → Weighs g (.nonterminal s) ws (some w)

/-- The weights of productions, multiplied one after the other onto a first factor. -/
inductive WeighsAll [Mul W] (g : WeightedGrammar W) :
    W → List Production → List String → W → Prop where
  | nil {w : W} : WeighsAll g w [] [] w
  | skip {p : Production} {ps : List Production} {us vs : List String} {w x : W} :
      Weighs g p us none → WeighsAll g w ps vs x → WeighsAll g w (p :: ps) (us ++ vs) x
  | cons {p : Production} {ps : List Production} {us vs : List String} {w x y : W} :
      Weighs g p us (some y) → WeighsAll g (y * w) ps vs x →
      WeighsAll g w (p :: ps) (us ++ vs) x

end

variable [Mul W] {g : WeightedGrammar W}

mutual

theorem derives_of_weighs {p : Production} {ws : List String} {x : Option W} :
    g.Weighs p ws x → g.Derives p ws
  | .listed h => .listed h
  | .literal h => .literal h
  | .alternative hs hr h => .alternative hs hr (derivesAll_of_weighsAll h)

theorem derivesAll_of_weighsAll {ps : List Production} {ws : List String} {w x : W} :
    g.WeighsAll w ps ws x → g.DerivesAll ps ws
  | .nil => .nil
  | .skip h hs => .cons (derives_of_weighs h) (derivesAll_of_weighsAll hs)
  | .cons h hs => .cons (derives_of_weighs h) (derivesAll_of_weighsAll hs)

end

mutual

theorem exists_weighs {p : Production} {ws : List String} :
    g.Derives p ws → ∃ x, g.Weighs p ws x
  | .listed h => ⟨_, .listed h⟩
  | .literal h => ⟨_, .literal h⟩
  | .alternative hs hr h =>
    let ⟨_, hx⟩ := exists_weighsAll h _
    ⟨_, .alternative hs hr hx⟩

theorem exists_weighsAll {ps : List Production} {ws : List String} :
    g.DerivesAll ps ws → ∀ w, ∃ x, g.WeighsAll w ps ws x
  | .nil, w => ⟨w, .nil⟩
  | .cons h hs, w =>
    match exists_weighs h with
    | ⟨none, hy⟩ =>
      let ⟨_, hx⟩ := exists_weighsAll hs w
      ⟨_, .skip hy hx⟩
    | ⟨some y, hy⟩ =>
      let ⟨_, hx⟩ := exists_weighsAll hs (y * w)
      ⟨_, .cons hy hx⟩

end

theorem derives_iff_weighs {p : Production} {ws : List String} :
    g.Derives p ws ↔ ∃ x, g.Weighs p ws x :=
  ⟨exists_weighs, fun ⟨_, h⟩ => derives_of_weighs h⟩

end TabularParsing.WeightedGrammar
