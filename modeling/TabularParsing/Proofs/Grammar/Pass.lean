import Mathlib.Data.List.Induction
import Mathlib.Data.List.Nodup
import TabularParsing.Grammar.Language
import TabularParsing.Grammar.Text

/-!
# How the tables of a grammar are filled

The pass over the rules keeps an invariant: whatever rules it has gone through, it has seen these
and no others, it has filed each of them once, in the order in which it first occurred, and the
indices that it has given are the positions of the nonterminals. The alternatives are filed by a
second pass with an invariant of its own. What the tables of a grammar hold follows.

## Main definitions

* `Grammar.Pass.Gathered`: the invariant of the pass.

## Main statements

* `Grammar.Pass.Gathered.step`, `Grammar.Pass.gathered_run`: one rule keeps it, and so all rules do.
* `Grammar.getD_foldl_fileUnder`: what is filed under a symbol.
* `Grammar.wordRules_eq`, `Grammar.pairRules_eq`, `Grammar.nonterminals_eq`,
  `Grammar.index?_eq_some_iff`, `Grammar.alternatives_eq`, `Grammar.pairIndices_eq`: the tables of a
  grammar.
-/
namespace TabularParsing

/-! ## Lists without copies -/

section Copies

variable {α β : Type} [BEq α] [LawfulBEq α] [BEq β] [LawfulBEq β]

/-- One more member is kept if it is new. -/
theorem eraseDups_concat (as : List α) (a : α) :
    (as ++ [a]).eraseDups = if a ∈ as then as.eraseDups else as.eraseDups ++ [a] := by
  rw [List.eraseDups_append]
  by_cases ha : a ∈ as
  · simp [List.removeAll, ha]
  · simp [List.removeAll, ha, List.eraseDups_cons]

theorem nodup_eraseDups (as : List α) : as.eraseDups.Nodup := by
  induction as using List.reverseRecOn with
  | nil => exact .nil
  | append_singleton as a ih =>
    rw [eraseDups_concat]
    split
    · exact ih
    · rename_i ha
      exact List.concat_eq_append ▸ ih.concat (mt List.mem_eraseDups.1 ha)

/-- Copies may be dropped before as well as after a function is applied. -/
theorem eraseDups_map_eraseDups (f : α → β) (as : List α) :
    (as.eraseDups.map f).eraseDups = (as.map f).eraseDups := by
  induction as using List.reverseRecOn with
  | nil => rfl
  | append_singleton as a ih =>
    rw [eraseDups_concat, List.map_append, List.map_singleton, eraseDups_concat]
    by_cases ha : a ∈ as
    · have hfa : f a ∈ as.map f := List.mem_map_of_mem ha
      rw [if_pos ha, if_pos hfa, ih]
    · have hfa : f a ∈ as.eraseDups.map f ↔ f a ∈ as.map f := by simp [List.mem_eraseDups]
      rw [if_neg ha, List.map_append, List.map_singleton, eraseDups_concat, ih]
      simp only [hfa]

end Copies

namespace Grammar

/-! ## The pass over the rules -/

namespace Pass

variable {p : Pass} {symbols : List String} {rules : List Rule}

/-- The nonterminals are these symbols, each once, and the indices are their positions. -/
structure Interned (p : Pass) (symbols : List String) : Prop where
  nonterminals : p.nonterminals.toList = symbols.eraseDups
  index_iff (s : String) (i : Nat) : p.index[s]? = some i ↔ p.nonterminals[i]? = some s

theorem Interned.contains_index (h : p.Interned symbols) (s : String) :
    p.index.contains s = true ↔ s ∈ symbols := by
  rw [← List.mem_eraseDups, ← h.nonterminals, Array.mem_toList_iff, Array.mem_iff_getElem?,
    Std.TreeMap.contains_eq_isSome_getElem?, Option.isSome_iff_exists]
  exact exists_congr fun i => h.index_iff s i

/-- A new symbol gets the number of those before it, which no other symbol has. -/
theorem Interned.intern (h : p.Interned symbols) (symbol : String) :
    (p.intern symbol).Interned (symbols ++ [symbol]) := by
  unfold Pass.intern
  split
  · rename_i hold
    have hmem : symbol ∈ symbols := (h.contains_index symbol).1 hold
    exact ⟨by rw [eraseDups_concat, if_pos hmem, h.nonterminals], h.index_iff⟩
  · rename_i hnew
    have hmem : symbol ∉ symbols := mt (h.contains_index symbol).2 hnew
    refine ⟨by rw [eraseDups_concat, if_neg hmem, Array.toList_push, h.nonterminals], ?_⟩
    intro s i
    simp only [Std.TreeMap.getElem?_insert, Std.LawfulEqCmp.compare_eq_iff_eq, Array.getElem?_push]
    have hfree : p.nonterminals[i]? ≠ some symbol := by
      intro hi
      refine hmem (List.mem_eraseDups.1 ?_)
      rw [← h.nonterminals, Array.mem_toList_iff]
      exact Array.mem_of_getElem? hi
    have hlast : p.nonterminals[p.nonterminals.size]? = none := by simp
    have hold := h.index_iff s i
    grind

section Fields

variable (p : Pass) (symbol : String) (r : Rule)

@[simp] theorem seen_intern : (p.intern symbol).seen = p.seen := by unfold intern; split <;> rfl

@[simp] theorem words_intern : (p.intern symbol).words = p.words := by unfold intern; split <;> rfl

@[simp] theorem pairs_intern : (p.intern symbol).pairs = p.pairs := by unfold intern; split <;> rfl

@[simp] theorem seen_file : (p.file r).seen = p.seen := by unfold file; split <;> rfl

theorem toList_words_file : (p.file r).words.toList = p.words.toList ++ [r].filter Rule.isWord := by
  unfold file
  split <;> simp [*]

theorem toList_pairs_file : (p.file r).pairs.toList = p.pairs.toList ++ [r].filter Rule.isPair := by
  unfold file
  cases hkind : r.rhs.isPair <;> simp [Rule.isWord, Rule.isPair, hkind]

end Fields

theorem Interned.file (h : p.Interned symbols) (r : Rule) : (p.file r).Interned symbols := by
  unfold Pass.file
  split <;> exact ⟨h.nonterminals, h.index_iff⟩

/-- What the pass has gathered once it has gone through some rules. -/
structure Gathered (p : Pass) (rules : List Rule) : Prop where
  contains_seen (r : Rule) : p.seen.contains r = true ↔ r ∈ rules
  words : p.words.toList = rules.eraseDups.filter Rule.isWord
  pairs : p.pairs.toList = rules.eraseDups.filter Rule.isPair
  interned : p.Interned (rules.map Rule.lhs)

theorem gathered_empty : empty.Gathered [] where
  contains_seen := by simp [empty]
  words := rfl
  pairs := rfl
  interned := ⟨rfl, by simp [empty]⟩

/-- A rule that was seen changes nothing, for neither it nor its left-hand side is new. -/
theorem Gathered.of_mem (h : p.Gathered rules) {r : Rule} (hr : r ∈ rules) :
    p.Gathered (rules ++ [r]) := by
  have hlhs : r.lhs ∈ rules.map Rule.lhs := List.mem_map_of_mem hr
  have hrules : (rules ++ [r]).eraseDups = rules.eraseDups := by
    rw [eraseDups_concat, if_pos hr]
  constructor
  case contains_seen =>
    intro s
    have hold := h.contains_seen s
    grind
  case words => rw [hrules, h.words]
  case pairs => rw [hrules, h.pairs]
  case interned =>
    refine ⟨?_, h.interned.index_iff⟩
    rw [List.map_append, List.map_singleton, eraseDups_concat, if_pos hlhs,
      h.interned.nonterminals]

/-- A rule that was not seen is interned and filed. -/
theorem Gathered.of_not_mem (h : p.Gathered rules) {r : Rule} (hr : r ∉ rules) :
    (({ p with seen := p.seen.insert r }.intern r.lhs).file r).Gathered (rules ++ [r]) := by
  have hrules : (rules ++ [r]).eraseDups = rules.eraseDups ++ [r] := by
    rw [eraseDups_concat, if_neg hr]
  constructor
  case contains_seen =>
    intro s
    have hold := h.contains_seen s
    simp only [seen_file, seen_intern, Std.TreeSet.contains_insert, Bool.or_eq_true, beq_iff_eq,
      Std.LawfulEqCmp.compare_eq_iff_eq]
    grind
  case words => rw [toList_words_file, words_intern, hrules, List.filter_append, h.words]
  case pairs => rw [toList_pairs_file, pairs_intern, hrules, List.filter_append, h.pairs]
  case interned =>
    have hold : { p with seen := p.seen.insert r }.Interned (rules.map Rule.lhs) :=
      ⟨h.interned.nonterminals, h.interned.index_iff⟩
    rw [List.map_append, List.map_singleton]
    exact (hold.intern r.lhs).file r

/-- One more rule. -/
theorem Gathered.step (h : p.Gathered rules) (r : Rule) : (p.step r).Gathered (rules ++ [r]) := by
  unfold Pass.step
  split
  · rename_i hseen
    exact h.of_mem ((h.contains_seen r).1 hseen)
  · rename_i hseen
    exact h.of_not_mem (mt (h.contains_seen r).2 hseen)

/-- The whole pass, one rule after the other. -/
theorem gathered_run (rules : List Rule) : (run rules).Gathered rules := by
  induction rules using List.reverseRecOn with
  | nil => exact gathered_empty
  | append_singleton rules r ih =>
    have hrun : run (rules ++ [r]) = (run rules).step r := List.foldl_concat ..
    rw [hrun]
    exact ih.step r

end Pass

/-! ## The pass over what was gathered -/

/-- A rule is filed last of those of its left-hand side. -/
theorem getD_fileUnder (alternatives : Std.TreeMap String (Array Rule)) (r : Rule) (s : String) :
    ((fileUnder alternatives r).getD s #[]).toList =
      (alternatives.getD s #[]).toList ++ [r].filter fun r => r.lhs == s := by
  rw [fileUnder, Std.TreeMap.getD_insert]
  by_cases hs : r.lhs = s
  · subst hs
    simp
  · simp [hs]

/-- What is filed under a symbol once rules are filed one after the other. -/
theorem getD_foldl_fileUnder (rules : List Rule) (s : String) :
    ((rules.foldl fileUnder ∅).getD s #[]).toList = rules.filter fun r => r.lhs == s := by
  induction rules using List.reverseRecOn with
  | nil => simp
  | append_singleton rules r ih =>
    rw [List.foldl_concat, getD_fileUnder, ih, List.filter_append]

/-! ## The tables of a grammar -/

variable {g : Grammar}

theorem ofRules_eq_ok_iff {rules : List Rule} :
    ofRules rules = .ok g ↔ ∃ h : rules ≠ [], g = make rules h := by
  unfold ofRules ofRules?
  by_cases h : rules = []
  · simp [h]
  · simp [h, eq_comm]

theorem nodup_rules (g : Grammar) : g.rules.Nodup := nodup_eraseDups _

theorem mem_rules_make {rules : List Rule} {h : rules ≠ []} {r : Rule} :
    r ∈ (make rules h).rules ↔ r ∈ rules := List.mem_eraseDups

theorem wordRules_eq (g : Grammar) : g.wordRules = g.rules.filter Rule.isWord := by
  rw [wordRules, g.tables_eq]
  exact (Pass.gathered_run g.source).words

theorem pairRules_eq (g : Grammar) : g.pairRules = g.rules.filter Rule.isPair := by
  rw [pairRules, g.tables_eq]
  exact (Pass.gathered_run g.source).pairs

theorem nonterminals_eq (g : Grammar) : g.nonterminals = (g.rules.map Rule.lhs).eraseDups := by
  rw [nonterminals, g.tables_eq, rules, eraseDups_map_eraseDups]
  exact (Pass.gathered_run g.source).interned.nonterminals

/-- Indices are positions among the nonterminals. -/
theorem index?_eq_some_iff {s : String} {i : Nat} :
    g.index? s = some i ↔ g.nonterminals[i]? = some s := by
  rw [index?, nonterminals, g.tables_eq, Array.getElem?_toList]
  exact (Pass.gathered_run g.source).interned.index_iff s i

theorem alternatives_eq (g : Grammar) (s : String) :
    g.alternatives s = g.sortedRules.filter fun r => r.lhs == s := by
  rw [alternatives, sortedRules, wordRules, pairRules, g.tables_eq, ← Array.toList_append,
    ← getD_foldl_fileUnder, Array.foldl_toList]
  rfl

theorem pairIndices_eq (g : Grammar) :
    g.pairIndices = g.pairRules.map (pairIndicesBy g.index?) := by
  have hindex : g.index? = fun s => g.tables.index[s]? := rfl
  rw [pairIndices, pairRules, hindex, g.tables_eq, ← Array.toList_map]
  rfl

theorem nodup_nonterminals (g : Grammar) : g.nonterminals.Nodup :=
  g.nonterminals_eq ▸ nodup_eraseDups _

theorem mem_nonterminals {symbol : String} :
    symbol ∈ g.nonterminals ↔ ∃ r ∈ g.rules, r.lhs = symbol := by
  simp [g.nonterminals_eq, List.mem_eraseDups]

theorem mem_wordRules {r : Rule} : r ∈ g.wordRules ↔ r ∈ g.rules ∧ r.isWord = true := by
  rw [wordRules_eq, List.mem_filter]

theorem mem_pairRules {r : Rule} : r ∈ g.pairRules ↔ r ∈ g.rules ∧ r.isPair = true := by
  rw [pairRules_eq, List.mem_filter]

theorem mem_sortedRules {r : Rule} : r ∈ g.sortedRules ↔ r ∈ g.rules := by
  rw [sortedRules, List.mem_append, mem_wordRules, mem_pairRules, Rule.isWord, Rule.isPair]
  cases r.rhs.isPair <;> simp

theorem mem_alternatives {r : Rule} {symbol : String} :
    r ∈ g.alternatives symbol ↔ r ∈ g.rules ∧ r.lhs = symbol := by
  simp [alternatives_eq, mem_sortedRules]

/-- Only nonterminals derive anything. -/
theorem Derives.mem_nonterminals {symbol : String} {ws : List String} (h : g.Derives symbol ws) :
    symbol ∈ g.nonterminals := by
  rw [Grammar.mem_nonterminals]
  cases h with
  | word hr => exact ⟨_, hr, rfl⟩
  | pair hr _ _ => exact ⟨_, hr, rfl⟩

end Grammar

end TabularParsing
