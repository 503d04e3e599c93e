import TabularParsing.Grammar.Basic
import TabularParsing.Span.Map

/-!
# Filling span charts

A chart over a grammar is filled from short spans to long ones: leaves by word rules, longer spans
by pair rules at every split. What a cell holds, and when a new value replaces an old one, is a
`CellPolicy`; recognition and best scores are two of them.
-/
namespace TabularParsing

/-- How a cell came about: a word rule at a position, or a pair rule over two cells. -/
inductive Backpointer where
  | leaf (position : Nat)
  | split (left right : Constituent)
  deriving DecidableEq, Inhabited

/-- A word rule with its nonterminal's index and what the policy attaches to it. -/
structure LeafRule (β : Type) where
  lhs : Nat
  word : String
  note : β

/-- A pair rule with its indices and what the policy attaches to it. -/
structure SplitRule (β : Type) where
  indices : Grammar.PairIndices
  note : β

structure CellPolicy (α β : Type) where
  /-- What a word rule offers at a position. -/
  leaf : β → Nat → Option α
  /-- What a pair rule offers over two cells. -/
  split : β → Constituent → α → Constituent → α → Option α
  /-- Whether a new value replaces the old one. -/
  beats : α → α → Bool

namespace Grammar

variable {β : Type}

def leafRules (g : Grammar) (note : Rule → β) : List (LeafRule β) :=
  g.wordRules.filterMap fun r => do return ⟨← g.index? r.lhs, ← r.word?, note r⟩

def splitRules (g : Grammar) (note : Rule → β) : List (SplitRule β) :=
  (g.pairIndices.zip g.pairRules).filterMap fun e => e.1.map fun p => ⟨p, note e.2⟩

end Grammar

/-- The spans of two words and more, shorter ones first, then from the left. -/
def spansUpTo (n : Nat) : List (Nat × Nat) :=
  (List.range' 2 (n - 1)).flatMap fun width =>
    (List.range' 1 (n + 1 - width)).map fun first => (first, first + width - 1)

namespace SpanMap

variable {α β : Type}

/-- Puts a value into a cell if the cell is free or the value beats the one it holds. -/
def offer (beats : α → α → Bool) (t : SpanMap α) (k : Constituent) : Option α → SpanMap α
  | none => t
  | some a =>
    match t.get? k with
    | none => t.set k a
    | some b => if beats a b then t.set k a else t

def fillLeaf (policy : CellPolicy α β) (rules : List (LeafRule β)) (t : SpanMap α)
    (word : String) (position : Nat) : SpanMap α :=
  rules.foldl (fun t r =>
    if r.word = word then
      t.offer policy.beats ⟨position, position, r.lhs⟩ (policy.leaf r.note position)
    else t) t

def fillLeaves (policy : CellPolicy α β) (rules : List (LeafRule β)) (tokens : List String)
    (t : SpanMap α) : SpanMap α :=
  (tokens.zipIdx 1).foldl (fun t p => t.fillLeaf policy rules p.1 p.2) t

/-- Applies a pair rule to a span split behind the position `mid`. -/
def fillSplit (policy : CellPolicy α β) (first mid last : Nat) (t : SpanMap α)
    (r : SplitRule β) : SpanMap α :=
  let left : Constituent := ⟨first, mid, r.indices.left⟩
  let right : Constituent := ⟨mid + 1, last, r.indices.right⟩
  match t.get? left, t.get? right with
  | some a, some b =>
    t.offer policy.beats ⟨first, last, r.indices.lhs⟩ (policy.split r.note left a right b)
  | _, _ => t

def fillSpan (policy : CellPolicy α β) (rules : List (SplitRule β)) (t : SpanMap α)
    (span : Nat × Nat) : SpanMap α :=
  (List.range' span.1 (span.2 - span.1)).foldl (fun t mid =>
    rules.foldl (fillSplit policy span.1 mid span.2) t) t

end SpanMap

/-- The chart of a sentence. -/
def Grammar.chart {α β : Type} (g : Grammar) (policy : CellPolicy α β) (note : Rule → β)
    (tokens : List String) : SpanMap α :=
  let leaves := (SpanMap.empty tokens.length g.nonterminals.length).fillLeaves policy
    (g.leafRules note) tokens
  (spansUpTo tokens.length).foldl (SpanMap.fillSpan policy (g.splitRules note)) leaves

end TabularParsing
