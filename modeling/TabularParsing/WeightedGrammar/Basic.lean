import TabularParsing.Format.Error
import TabularParsing.RuleWeights.Basic
import TabularParsing.WeightedRule

/-!
# Weighted grammars

A start symbol, for each nonterminal its weighted rules in the order in which they were added, and
a lexicon: for each category the weights of its words. No rule has an empty right-hand side.
-/
namespace TabularParsing

structure WeightedGrammar (W : Type) where
  start : String
  rules : Std.TreeMap String (List (WeightedRule W))
  lexicon : Std.TreeMap String (Std.TreeMap String W)
  filed : ∀ s, ∀ r ∈ rules.getD s [], r.symbol = s ∧ r.productions ≠ []

namespace WeightedGrammar

variable {W : Type}

def empty (start : String) : WeightedGrammar W := ⟨start, ∅, ∅, by simp⟩

def startAt (g : WeightedGrammar W) (start : String) : WeightedGrammar W :=
  { g with start := start }

/-- The rules of a symbol in the order in which they were added. -/
def alternatives (g : WeightedGrammar W) (symbol : String) : List (WeightedRule W) :=
  g.rules.getD symbol []

/-- Adds a rule whose right-hand side is not empty behind the other rules of its symbol. -/
def addFilled (g : WeightedGrammar W) (r : WeightedRule W) (h : r.productions ≠ []) :
    WeightedGrammar W where
  start := g.start
  rules := g.rules.insert r.symbol (g.alternatives r.symbol ++ [r])
  lexicon := g.lexicon
  filed s q hq := by
    rw [Std.TreeMap.getD_insert] at hq
    split at hq
    · rename_i hs
      have hs : r.symbol = s := by simpa using hs
      subst hs
      rcases List.mem_append.1 hq with hq | hq
      · exact g.filed _ q hq
      · rw [List.mem_singleton.1 hq]
        exact ⟨rfl, h⟩
    · exact g.filed s q hq

/-- Adds a rule; an empty right-hand side is refused. -/
def addAlternative (g : WeightedGrammar W) (r : WeightedRule W) :
    Except FormatError (WeightedGrammar W) :=
  if h : r.productions = [] then .error FormatFault.emptyRhs.unplaced else .ok (g.addFilled r h)

/-- Adds a rule whose symbols are told apart by their first letters. -/
def addSymbols (g : WeightedGrammar W) (lhs : String) (symbols : List String) (weight : W) :
    Except FormatError (WeightedGrammar W) :=
  g.addAlternative ⟨lhs, symbols.map Production.ofSymbol, weight⟩

/-- Unless it is refused, a rule is added behind the others of its symbol. -/
theorem exists_addFilled_of_addSymbols {g g' : WeightedGrammar W} {lhs : String}
    {symbols : List String} {w : W} (h : g.addSymbols lhs symbols w = .ok g') :
    ∃ hne, g' = g.addFilled ⟨lhs, symbols.map Production.ofSymbol, w⟩ hne := by
  unfold addSymbols addAlternative at h
  split at h
  · cases h
  · exact ⟨_, (Except.ok.inj h).symm⟩

/-- Lists a word in a category of the lexicon. -/
def listWord (g : WeightedGrammar W) (category word : String) (weight : W) : WeightedGrammar W :=
  { g with lexicon := g.lexicon.insert category ((g.lexicon.getD category ∅).insert word weight) }

def nonterminals (g : WeightedGrammar W) : List String := g.rules.keys

def categories (g : WeightedGrammar W) : List String := g.lexicon.keys

def isCategory (g : WeightedGrammar W) (symbol : String) : Bool := g.lexicon.contains symbol

/-- The weight of a word in a category, if the category lists it. -/
def wordWeight? (g : WeightedGrammar W) (category word : String) : Option W :=
  g.lexicon[category]? >>= fun words => words[word]?

/-- All rules, sorted by symbol. -/
def allRules (g : WeightedGrammar W) : List (WeightedRule W) :=
  g.rules.toList.flatMap Prod.snd

/-- The lexicon as category, word and weight, sorted. -/
def allWords (g : WeightedGrammar W) : List (String × String × W) :=
  g.lexicon.toList.flatMap fun c => c.2.toList.map fun w => (c.1, w.1, w.2)

/-- The nonterminals, then the categories, whose weights do not add up to one within the
tolerance. -/
def unnormalized [Zero W] [One W] [Add W] [Sub W] [LT W] [DecidableLT W]
    (g : WeightedGrammar W) (tolerance : W) : List (String × W) :=
  let ruleSums := g.rules.toList.map fun e => (e.1, sumOf (e.2.map WeightedRule.weight))
  let wordSums := g.lexicon.toList.map fun e => (e.1, sumOf e.2.values)
  (ruleSums ++ wordSums).filter fun p => offOne tolerance p.2

/-- A rule in Chomsky normal form as a weighted rule: its word is a terminal, whatever its case,
its children are nonterminals. -/
def ofCnfRule (r : Rule) (weight : W) : WeightedRule W :=
  ⟨r.lhs, match r.rhs with
    | .word w => [.terminal w]
    | .pair left right => [.nonterminal left, .nonterminal right], weight⟩

theorem productions_ofCnfRule_ne_nil (r : Rule) (weight : W) :
    (ofCnfRule r weight).productions ≠ [] := by
  unfold ofCnfRule; split <;> simp

/-- The weighted grammar of a grammar in Chomsky normal form. -/
def ofCnf [Zero W] (g : Grammar) (weights : RuleWeights W) (start : String) : WeightedGrammar W :=
  g.sortedRules.foldl
    (fun wg r => wg.addFilled (ofCnfRule r (weights.get r)) (productions_ofCnfRule_ne_nil _ _))
    (empty start)

/-- Same start, same rules in the same order up to their weights, and equal lexicons. -/
def same [BEq W] (g h : WeightedGrammar W) : Bool :=
  g.start == h.start &&
    g.rules.toList.map (fun e => (e.1, e.2.map fun r => (r.symbol, r.productions))) ==
      h.rules.toList.map (fun e => (e.1, e.2.map fun r => (r.symbol, r.productions))) &&
    g.allWords == h.allWords

@[simp] theorem alternatives_empty (start symbol : String) :
    (empty start : WeightedGrammar W).alternatives symbol = [] := by
  simp [alternatives, empty]

theorem alternatives_addFilled (g : WeightedGrammar W) (r : WeightedRule W)
    (h : r.productions ≠ []) (symbol : String) :
    (g.addFilled r h).alternatives symbol =
      g.alternatives symbol ++ if r.symbol = symbol then [r] else [] := by
  simp only [alternatives, addFilled, Std.TreeMap.getD_insert]
  by_cases hs : r.symbol = symbol <;> simp [hs]

@[simp] theorem alternatives_listWord (g : WeightedGrammar W) (c w : String) (p : W)
    (symbol : String) : (g.listWord c w p).alternatives symbol = g.alternatives symbol := rfl

theorem isCategory_listWord (g : WeightedGrammar W) (c w : String) (p : W) (symbol : String) :
    (g.listWord c w p).isCategory symbol = (c == symbol || g.isCategory symbol) := by
  rw [Bool.eq_iff_iff]
  simp [isCategory, listWord]

theorem wordWeight?_listWord (g : WeightedGrammar W) (c w : String) (p : W) (d v : String) :
    (g.listWord c w p).wordWeight? d v =
      if c = d ∧ w = v then some p else g.wordWeight? d v := by
  simp only [wordWeight?, listWord, Std.TreeMap.getElem?_insert, Std.LawfulEqCmp.compare_eq_iff_eq]
  by_cases hc : c = d
  · subst hc
    by_cases hw : w = v
    · simp [hw]
    · cases h : g.lexicon[c]? <;>
        simp [hw, h, Std.TreeMap.getD_eq_getD_getElem?, Std.TreeMap.getElem?_insert]
  · simp [hc]

/-- What lists a word is a category. -/
theorem isCategory_of_wordWeight? {g : WeightedGrammar W} {c w : String} {p : W}
    (h : g.wordWeight? c w = some p) : g.isCategory c = true := by
  obtain ⟨words, hwords, -⟩ := Option.bind_eq_some_iff.1 h
  rw [isCategory, Std.TreeMap.contains_eq_isSome_getElem?, hwords]
  rfl

end WeightedGrammar

end TabularParsing
