import TabularParsing.Earley.Chart
import TabularParsing.WeightedGrammar.Basic

/-!
# Filling a chart

The states are worked off from the left. A state grows while it is worked on; its items are taken
in order, and once all are taken, those that improved after their turn are taken again, the latest
first, so that a better weight reaches everything built on it. A run may be given only so many
turns.
-/
namespace TabularParsing.Earley

/-- The symbol of the goal rule. -/
def goalSymbol : String := "ROOT"

variable {W : Type} [Mul W] [LT W] [DecidableLT W]

/-- Adds every alternative of a symbol at a position. -/
def predict (g : WeightedGrammar W) (k : Nat) (symbol : String) (c : Chart W) :
    Except Fault (Chart W) :=
  (g.alternatives symbol).foldlM (fun c r => do
    let (_, c) ← c.add k ⟨.ofRule r, k, k, .prediction, [], r.weight, false⟩
    return c) c

/-- Consumes the word at a position. A category that lists the word adds a completed item of its
own; a literal word moves the dot. -/
def scan (g : WeightedGrammar W) (tokens : List String) (k : Nat) (i : Item W) (needed : String)
    (c : Chart W) : Except Fault (Chart W) :=
  match tokens[k]? with
  | none => .ok c
  | some word =>
    if g.isCategory needed then
      match g.wordWeight? needed word with
      | none => .ok c
      | some w => do
        let r : WeightedRule W := ⟨needed, [.terminal word], w⟩
        let (_, c) ← c.add (k + 1) ⟨⟨r, 1⟩, k, k + 1, .scan, [], w, false⟩
        return c
    else if needed = word then do
      let (_, c) ← c.add (k + 1)
        ⟨i.dotted.advance, i.origin, k + 1, .scan, i.children, i.weight, i.forGoal⟩
      return c
    else .ok c

/-- Moves the dot of one waiting item over a completed one, and notes the position of an item that
improved. -/
def completeOne (k place : Nat) (done : Item W) (c : Chart W) (improved : List Nat)
    (waitingPlace : Nat) : Except Fault (Chart W × List Nat) := do
  let waiting ← c.item waitingPlace
  match waiting.dotted.next? with
  | none => return (c, improved)
  | some p =>
    if p.symbol = done.symbol then
      let (insertion, c) ← c.add k
        ⟨waiting.dotted.advance, waiting.origin, k, .completion, waiting.children ++ [place],
          done.weight * waiting.weight, waiting.forGoal⟩
      match insertion with
      | .improved position => return (c, improved ++ [position])
      | _ => return (c, improved)
    else return (c, improved)

/-- Moves the dot of every item of the origin state that waits for the completed one. Answers the
positions of the items that improved. Nothing waits for the goal rule. -/
def complete (k place : Nat) (done : Item W) (c : Chart W) :
    Except Fault (Chart W × List Nat) := do
  if done.forGoal then return (c, [])
  else
    let waiting ← c.state done.origin
    (List.range waiting.size).foldlM (fun (c, improved) position => do
      let s ← c.state done.origin
      match s[position]? with
      | some waitingPlace => completeOne k place done c improved waitingPlace
      | none => return (c, improved)) (c, [])

/-- Works on one item; answers the positions of completed work that improved. -/
def process (g : WeightedGrammar W) (tokens : List String) (k place : Nat) (c : Chart W) :
    Except Fault (Chart W × List Nat) := do
  let i ← c.item place
  match i.dotted.next? with
  | none => complete k place i c
  | some p =>
    if p.isTerminal || g.isCategory p.symbol then
      return (← scan g tokens k i p.symbol c, [])
    else return (← predict g k p.symbol c, [])

/-- How far a state is worked off, and the places that are to be worked on again. -/
structure Agenda where
  cursor : Nat
  requeued : List Nat

namespace Agenda

/-- The next place to work on. -/
def next? (a : Agenda) (state : Array Nat) : Option (Nat × Agenda) :=
  match state[a.cursor]? with
  | some place => some (place, ⟨a.cursor + 1, a.requeued⟩)
  | none =>
    match a.requeued with
    | place :: rest => some (place, ⟨a.cursor, rest⟩)
    | [] => none

/-- Puts improved items on top whose turn has passed. -/
def requeue (a : Agenda) (state : Array Nat) (improved : List Nat) : Agenda :=
  ⟨a.cursor, improved.foldl (fun places position =>
    if position < a.cursor then (state[position]?).toList ++ places else places) a.requeued⟩

end Agenda

/-- Works off a state in at most this many turns. -/
def work (g : WeightedGrammar W) (tokens : List String) (k : Nat) :
    Nat → Agenda → Chart W → Except Fault (Chart W)
  | n, a, c => do
    let s ← c.state k
    match a.next? s with
    | none => return c
    | some (place, a) =>
      match n with
      | 0 => .error .outOfSteps
      | n + 1 => do
        let (c, improved) ← process g tokens k place c
        let s ← c.state k
        work g tokens k n (a.requeue s improved) c

/-- The chart that holds nothing but the goal rule, waiting for the start symbol. -/
def initialChart [One W] (g : WeightedGrammar W) (tokens : List String) : Chart W :=
  (Chart.empty (tokens.length + 1)).push 0
    ⟨.ofRule ⟨goalSymbol, [.ofSymbol g.start], 1⟩, 0, 0, .initial, [], 1, true⟩

/-- The chart of a sentence, each state worked off in at most `limit` turns. -/
def fillChart [One W] (limit : Nat) (g : WeightedGrammar W) (tokens : List String) :
    Except Fault (Chart W) :=
  (List.range (tokens.length + 1)).foldlM (fun c k => work g tokens k limit ⟨0, []⟩ c)
    (initialChart g tokens)

end TabularParsing.Earley
