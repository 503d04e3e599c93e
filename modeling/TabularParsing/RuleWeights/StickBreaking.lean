import TabularParsing.Draw
import TabularParsing.RuleWeights.Basic

/-!
# Random weights by breaking a stick

The alternatives of a symbol share a stick of length one: each but the last takes a random piece of
what is left, the last takes the rest.
-/
namespace TabularParsing.RuleWeights

variable {W G : Type} [Zero W] [One W] [Add W] [Sub W] [LT W] [DecidableLT W]

/-- The pieces of the alternatives, when pieces of length `sum` are gone already. -/
def breakStick (draw : Drawing G W) : List Rule → W → G → Option (List (Rule × W) × G)
  | [], _, source => some ([], source)
  | [r], sum, source => some ([(r, 1 - sum)], source)
  | r :: s :: rs, sum, source => do
    let (piece, source) ←
      if 0 < 1 - sum then draw (1 - sum) source else some (0, source)
    let (pieces, source) ← breakStick draw (s :: rs) (sum + piece) source
    return ((r, piece) :: pieces, source)

/-- A broken stick for each nonterminal in order; none if some bound admits no draw. -/
def breakSticks (draw : Drawing G W) (g : Grammar) :
    List String → G → Option (List (Rule × W) × G)
  | [], source => some ([], source)
  | symbol :: symbols, source => do
    let (pieces, source) ← breakStick draw (g.alternatives symbol) 0 source
    let (others, source) ← breakSticks draw g symbols source
    return (pieces ++ others, source)

/-- Random weights for all rules of a grammar, and the source afterwards. -/
def byStickBreaking (draw : Drawing G W) (g : Grammar) (source : G) : Option (RuleWeights W × G) :=
  (breakSticks draw g g.nonterminals source).map fun p => (ofList p.1, p.2)

end TabularParsing.RuleWeights
