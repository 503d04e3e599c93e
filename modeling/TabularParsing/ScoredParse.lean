import TabularParsing.LogScale
import TabularParsing.Recognizer
import TabularParsing.RuleWeights.Basic

/-!
# Most probable derivations

A cell keeps the best score of its symbol over its span and the backpointer that reaches it; of
equal scores the first stays. Scores are sums of logarithms, left child, rule, right child.
-/
namespace TabularParsing

/-- The best score of a cell and how it is reached. -/
structure BestCell (L : Type) where
  score : L
  origin : Backpointer

variable {W L : Type}

/-- Keeps the best score of a cell; what scores `never` is not kept. -/
def bestScore [Add L] [LT L] [DecidableLT L] (never : L) : CellPolicy (BestCell L) L where
  leaf ruleScore position := if never < ruleScore then some ⟨ruleScore, .leaf position⟩ else none
  split ruleScore left a right b :=
    let score := a.score + ruleScore + b.score
    if never < ruleScore ∧ never < score then some ⟨score, .split left right⟩ else none
  beats a b := b.score < a.score

def bestView (scale : LogScale W L) : CellView (BestCell L) W :=
  ⟨BestCell.origin, fun c => scale.exp c.score⟩

/-- A scored sentence: its tokens and the chart of its spans. -/
structure ScoredParse (L : Type) where
  tokens : List String
  chart : SpanMap (BestCell L)

section

variable [Zero W] [LT W] [DecidableLT W] [Add L] [LT L] [DecidableLT L]

def Grammar.bestChart (g : Grammar) (scale : LogScale W L) (weights : RuleWeights W)
    (tokens : List String) : SpanMap (BestCell L) :=
  g.chart (bestScore scale.never) (fun r => scale.logWeight (weights.get r)) tokens

def Grammar.scored (g : Grammar) (scale : LogScale W L) (weights : RuleWeights W)
    (tokens : List String) : ScoredParse L :=
  ⟨tokens, g.bestChart scale weights tokens⟩

end

namespace ScoredParse

/-- The score of a cell, `never` if it is not set. -/
def cellScore (p : ScoredParse L) (scale : LogScale W L) (k : Constituent) : L :=
  match p.chart.get? k with
  | some c => c.score
  | none => scale.never

/-- The score of the best derivation of the whole sentence from a start symbol. -/
def score (p : ScoredParse L) (scale : LogScale W L) (g : Grammar) (start : String) : L :=
  match g.index? start with
  | some s => p.cellScore scale ⟨1, p.tokens.length, s⟩
  | none => scale.never

/-- Whether the sentence has a derivation at all. -/
def derivable [BEq L] (p : ScoredParse L) (scale : LogScale W L) (g : Grammar)
    (start : String) : Bool :=
  p.score scale g start != scale.never

def probability (p : ScoredParse L) (scale : LogScale W L) (g : Grammar) (start : String) : W :=
  scale.exp (p.score scale g start)

/-- The derivation that the chart holds for the whole sentence. -/
def tree (p : ScoredParse L) (scale : LogScale W L) (g : Grammar) (start : String) :
    Option (Tree W) := do
  let s ← g.index? start
  p.chart.tree (bestView scale) g p.tokens ⟨1, p.tokens.length, s⟩

/-- The most probable derivation, if the sentence has one. -/
def bestDerivation [BEq L] (p : ScoredParse L) (scale : LogScale W L) (g : Grammar)
    (start : String) : Option (Tree W) :=
  if p.derivable scale g start then p.tree scale g start else none

/-- Equal tokens and equal cells. -/
def same [BEq L] (p q : ScoredParse L) : Bool :=
  p.tokens == q.tokens &&
    (p.chart.toList.map fun e => (e.1, e.2.score, e.2.origin)) ==
      q.chart.toList.map fun e => (e.1, e.2.score, e.2.origin)

end ScoredParse

end TabularParsing
