import TabularParsing.Draw
import TabularParsing.RuleWeights.Basic

/-!
# Random sentences

A symbol is expanded top-down. At each expansion a draw below the total weight of the alternatives
picks the first whose running sum exceeds the draw, so an alternative is picked as often as it
weighs. Expansions may nest only so deep.
-/
namespace TabularParsing

inductive SamplingError where
  /-- No alternative of the symbol has any weight. -/
  | noAlternatives (symbol : String)
  /-- Expansions nest deeper than the limit. -/
  | depthExceeded (limit : Nat)
  /-- The weights of the symbol's alternatives do not add up to a bound one can draw below. -/
  | undrawable (symbol : String)
  deriving DecidableEq, Inhabited

def SamplingError.message : SamplingError → String
  | noAlternatives symbol => "no alternatives with nonzero weight for `" ++ symbol ++ "`"
  | depthExceeded limit =>
    "expansion deeper than " ++ toString limit ++ " levels, grammar is probably cyclic"
  | undrawable symbol => "no total weight to draw from for `" ++ symbol ++ "`"

/-- How deep expansions may nest. -/
def maxDepth : Nat := 256

/-- The sums of the first weights, of the first two, and so on. -/
def runningSums {W : Type} [Zero W] [Add W] (ws : List W) : List W := go 0 ws
where
  go (sum : W) : List W → List W
    | [] => []
    | w :: ws => (sum + w) :: go (sum + w) ws

/-- Halves the places from `base` on, `size` of them, keeping the upper half while `below` holds at
its first place. -/
def halve (below : Nat → Bool) : Nat → Nat → Nat → Nat
  | 0, _, base => base
  | n + 1, size, base =>
    if size ≤ 1 then base
    else halve below n (size - size / 2) (if below (base + size / 2) then base + size / 2 else base)

/-- The first of `size` places at which `below` fails, `size` if it fails at none. -/
def firstAbove (below : Nat → Bool) (size : Nat) : Nat :=
  if size = 0 then 0
  else
    let base := halve below size size 0
    if below base then base + 1 else base

variable {W G : Type} [Zero W] [Add W] [LE W] [DecidableLE W]

/-- Picks one of the rules of a symbol, each in proportion to its weight. -/
def pickRule (draw : Drawing G W) (weights : RuleWeights W) (rules : List Rule) (symbol : String)
    (source : G) : Except SamplingError Rule × G :=
  let sums := runningSums (rules.map weights.get)
  let total := sums.getLast?.getD 0
  if total ≤ 0 then (.error (.noAlternatives symbol), source)
  else
    match draw total source with
    | none => (.error (.undrawable symbol), source)
    | some (u, source) =>
      match rules[firstAbove (fun i => sums[i]?.any (· ≤ u)) sums.length]? with
      | some r => (.ok r, source)
      | none => (.error (.noAlternatives symbol), source)

namespace Grammar

/-- The words of a random derivation of a symbol that may still nest `n` expansions. -/
def expand (draw : Drawing G W) (g : Grammar) (weights : RuleWeights W) :
    Nat → String → G → Except SamplingError (List String) × G
  | 0, _, source => (.error (.depthExceeded maxDepth), source)
  | n + 1, symbol, source =>
    match pickRule draw weights (g.alternatives symbol) symbol source with
    | (.error e, source) => (.error e, source)
    | (.ok r, source) =>
      match r.rhs with
      | .word w => (.ok [w], source)
      | .pair left right =>
        match expand draw g weights n left source with
        | (.error e, source) => (.error e, source)
        | (.ok ws, source) =>
          match expand draw g weights n right source with
          | (.error e, source) => (.error e, source)
          | (.ok vs, source) => (.ok (ws ++ vs), source)

/-- A random sentence derived from a symbol, its words joined by single spaces. -/
def randomSentence (draw : Drawing G W) (g : Grammar) (weights : RuleWeights W) (symbol : String)
    (source : G) : Except SamplingError String × G :=
  match g.expand draw weights (maxDepth + 1) symbol source with
  | (.ok ws, source) => (.ok (" ".intercalate ws), source)
  | (.error e, source) => (.error e, source)

end Grammar

end TabularParsing
