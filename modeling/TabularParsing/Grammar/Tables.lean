import Std.Data.TreeSet
import TabularParsing.Rule

/-!
# The tables of a grammar

One pass over a list of rules drops later copies, gives each new left-hand side the next index and
files word rules and pair rules apart. What the pass has gathered is then gone through once for the
alternatives of each symbol and once for the indices of each pair rule.

Sets and maps are only looked up in, never listed, so their own order is of no account.

## Main definitions

* `Pass.step`: what the pass does with one rule.
* `Tables.ofRules`: all tables of a list of rules.
-/
namespace TabularParsing.Grammar

/-- What has been gathered from the rules so far. -/
structure Pass where
  seen : Std.TreeSet Rule
  words : Array Rule
  pairs : Array Rule
  nonterminals : Array String
  index : Std.TreeMap String Nat

namespace Pass

def empty : Pass := ⟨∅, #[], #[], #[], ∅⟩

/-- Gives a symbol the next index if it has none. -/
def intern (p : Pass) (symbol : String) : Pass :=
  if p.index.contains symbol then p
  else
    { p with
      index := p.index.insert symbol p.nonterminals.size
      nonterminals := p.nonterminals.push symbol }

/-- Files a rule with those of its kind. -/
def file (p : Pass) (r : Rule) : Pass :=
  if r.isWord then { p with words := p.words.push r } else { p with pairs := p.pairs.push r }

/-- A rule that was seen before is dropped. -/
def step (p : Pass) (r : Rule) : Pass :=
  if p.seen.contains r then p
  else ({ p with seen := p.seen.insert r }.intern r.lhs).file r

def run (rules : List Rule) : Pass := rules.foldl step empty

end Pass

/-- Files a rule under its left-hand side, behind the rules that are there. -/
def fileUnder (alternatives : Std.TreeMap String (Array Rule)) (r : Rule) :
    Std.TreeMap String (Array Rule) :=
  alternatives.insert r.lhs ((alternatives.getD r.lhs #[]).push r)

/-- The nonterminal indices of a pair rule. -/
structure PairIndices where
  lhs : Nat
  left : Nat
  right : Nat
  deriving DecidableEq

/-- The indices of a pair rule; none if a child has no index, and the rule can never apply. -/
def pairIndicesBy (index? : String → Option Nat) (r : Rule) : Option PairIndices := do
  let (left, right) ← r.children?
  return ⟨← index? r.lhs, ← index? left, ← index? right⟩

structure Tables where
  words : Array Rule
  pairs : Array Rule
  nonterminals : Array String
  index : Std.TreeMap String Nat
  alternatives : Std.TreeMap String (Array Rule)
  /-- The indices of each pair rule, in the order of `pairs`. -/
  pairIndices : Array (Option PairIndices)

def Tables.ofRules (rules : List Rule) : Tables :=
  let p := Pass.run rules
  { words := p.words
    pairs := p.pairs
    nonterminals := p.nonterminals
    index := p.index
    alternatives := (p.words ++ p.pairs).foldl fileUnder ∅
    pairIndices := p.pairs.map (pairIndicesBy fun s => p.index[s]?) }

end TabularParsing.Grammar
