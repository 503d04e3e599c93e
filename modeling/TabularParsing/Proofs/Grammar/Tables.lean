import Mathlib.Data.List.Sort
import TabularParsing.Proofs.Span.Rules

/-!
# The tables of a grammar

A grammar that is made of rules keeps the word rules, the pair rules, the nonterminals with their
indices, the alternatives of each symbol and the indices of each pair rule, each in a table of its
own. All of them say the same about the rules: what they hold is what the rules hold, each once, in
the order in which it first occurs.

## Main definitions

* `InOrderOf`: members of a list in the order in which they first occur there.
* `Grammar.TablesOf`: what the tables hold.

## Main statements

* `inOrderOf_eraseDups`: the order of a list without copies.
* `Grammar.tablesOf_ofRules`: the tables of a grammar that is made of rules.
* `Grammar.TablesOf.unique`: there are no other tables.
-/
namespace TabularParsing

/-! ## First occurrences -/

section FirstOccurrences

variable {α : Type} [BEq α]

/-- Members in the order in which they first occur in a list. -/
def InOrderOf (as bs : List α) : Prop := bs.Pairwise fun a b => as.idxOf a < as.idxOf b

theorem InOrderOf.sublist {as bs cs : List α} (h : InOrderOf as cs) (hsub : bs.Sublist cs) :
    InOrderOf as bs :=
  List.Pairwise.sublist hsub h

/-- The order leaves no choice. -/
theorem InOrderOf.eq_of_mem_iff {as bs cs : List α} (hbs : InOrderOf as bs) (hcs : InOrderOf as cs)
    (h : ∀ a, a ∈ bs ↔ a ∈ cs) : bs = cs :=
  have : Std.Asymm fun a b => as.idxOf a < as.idxOf b := ⟨fun _ _ hab hba => by omega⟩
  have : Std.Irrefl fun a b => as.idxOf a < as.idxOf b := ⟨fun _ => by omega⟩
  List.Pairwise.eq_of_mem_iff hbs hcs h

variable [LawfulBEq α]

theorem inOrderOf_eraseDups (as : List α) : InOrderOf as as.eraseDups := by
  induction as using List.reverseRecOn with
  | nil => exact .nil
  | append_singleton as a ih =>
    have hfirst {b : α} (hb : b ∈ as.eraseDups) : (as ++ [a]).idxOf b = as.idxOf b :=
      List.idxOf_append_of_mem (List.mem_eraseDups.1 hb)
    have hold : InOrderOf (as ++ [a]) as.eraseDups :=
      List.Pairwise.imp_of_mem (fun hb hc h => by rwa [hfirst hb, hfirst hc]) ih
    rw [eraseDups_concat]
    split
    · exact hold
    · rename_i ha
      refine List.pairwise_append.2 ⟨hold, List.pairwise_singleton _ _, fun b hb c hc => ?_⟩
      obtain rfl := List.mem_singleton.1 hc
      -- a new member comes last
      have hlt : as.idxOf b < as.length := List.idxOf_lt_length_of_mem (List.mem_eraseDups.1 hb)
      rw [hfirst hb, List.idxOf_append_of_notMem ha]
      omega

end FirstOccurrences

namespace Grammar

/-! ## One table at a time -/

section Tables

variable {g : Grammar}

theorem nodup_sortedRules (g : Grammar) : g.sortedRules.Nodup := by
  rw [sortedRules, wordRules_eq, pairRules_eq]
  refine List.nodup_append'.2 ⟨g.nodup_rules.filter _, g.nodup_rules.filter _, ?_⟩
  intro r hword hpair
  have hword := (List.mem_filter.1 hword).2
  have hpair := (List.mem_filter.1 hpair).2
  grind [Rule.isWord, Rule.isPair]

theorem index?_eq_none_iff {s : String} : g.index? s = none ↔ s ∉ g.nonterminals := by
  simp only [Option.eq_none_iff_forall_ne_some, ne_eq, index?_eq_some_iff, List.mem_iff_getElem?,
    not_exists]

theorem isNonterminal_iff {s : String} : g.isNonterminal s = true ↔ s ∈ g.nonterminals := by
  rw [isNonterminal, Std.TreeMap.contains_eq_isSome_getElem?, Option.isSome_iff_ne_none,
    ← not_iff_not, not_not]
  exact index?_eq_none_iff

theorem alternatives_ne_nil_iff {s : String} : g.alternatives s ≠ [] ↔ s ∈ g.nonterminals := by
  rw [mem_nonterminals]
  constructor
  · intro h
    obtain ⟨r, hr⟩ := List.exists_mem_of_ne_nil _ h
    exact ⟨r, mem_alternatives.1 hr⟩
  · rintro ⟨r, hr⟩
    exact List.ne_nil_of_mem (mem_alternatives.2 hr)

theorem contains_iff {r : Rule} : g.contains r = true ↔ r ∈ g.rules := by
  simp [contains, mem_alternatives]

theorem getElem?_pairIndices {k : Nat} {lhs left right : String}
    (h : g.pairRules[k]? = some (.pair lhs left right)) :
    g.pairIndices[k]? = some (pairIndicesBy g.index? (.pair lhs left right)) := by
  rw [pairIndices_eq, List.getElem?_map, h, Option.map_some]

/-- A pair rule has indices if its children are nonterminals; its left-hand side is one. -/
theorem exists_pairIndicesBy_iff {lhs left right : String} (h : .pair lhs left right ∈ g.rules) :
    (∃ p, pairIndicesBy g.index? (.pair lhs left right) = some p) ↔
      left ∈ g.nonterminals ∧ right ∈ g.nonterminals := by
  constructor
  · rintro ⟨p, hp⟩
    obtain ⟨-, hleft, hright⟩ := pairIndicesBy_eq_some_iff.1 hp
    exact ⟨List.mem_of_getElem? (index?_eq_some_iff.1 hleft),
      List.mem_of_getElem? (index?_eq_some_iff.1 hright)⟩
  · rintro ⟨hleft, hright⟩
    obtain ⟨a, ha⟩ := exists_index? (mem_nonterminals.2 ⟨_, h, rfl⟩)
    obtain ⟨b, hb⟩ := exists_index? hleft
    obtain ⟨c, hc⟩ := exists_index? hright
    exact ⟨⟨a, b, c⟩, pairIndicesBy_eq_some_iff.2 ⟨ha, hb, hc⟩⟩

end Tables

/-! ## All tables -/

/-- What the tables of a grammar hold that is made of the given rules. -/
structure TablesOf (g : Grammar) (rules : List Rule) : Prop where
  mem_wordRules (r : Rule) : r ∈ g.wordRules ↔ r ∈ rules ∧ r.isWord = true
  wordRules_inOrder : InOrderOf rules g.wordRules
  mem_pairRules (r : Rule) : r ∈ g.pairRules ↔ r ∈ rules ∧ r.isPair = true
  pairRules_inOrder : InOrderOf rules g.pairRules
  mem_rules (r : Rule) : r ∈ g.wordRules ++ g.pairRules ↔ r ∈ rules
  nodup_rules : (g.wordRules ++ g.pairRules).Nodup
  mem_nonterminals (s : String) : s ∈ g.nonterminals ↔ ∃ r ∈ rules, r.lhs = s
  nonterminals_inOrder : InOrderOf (rules.map Rule.lhs) g.nonterminals
  nodup_nonterminals : g.nonterminals.Nodup
  index?_eq_some (s : String) (i : Nat) : g.index? s = some i ↔ g.nonterminals[i]? = some s
  index?_eq_none (s : String) : g.index? s = none ↔ s ∉ g.nonterminals
  alternatives_sublist (s : String) : (g.alternatives s).Sublist (g.wordRules ++ g.pairRules)
  mem_alternatives (s : String) (r : Rule) : r ∈ g.alternatives s ↔ r ∈ rules ∧ r.lhs = s
  alternatives_ne_nil (s : String) : g.alternatives s ≠ [] ↔ s ∈ g.nonterminals
  contains_iff (r : Rule) : g.contains r = true ↔ r ∈ rules
  length_pairIndices : g.pairIndices.length = g.pairRules.length
  /-- Indices of a pair rule whose children are nonterminals, and of no other. -/
  exists_pairIndices {k : Nat} {lhs left right : String} :
    g.pairRules[k]? = some (.pair lhs left right) →
      ((∃ p, g.pairIndices[k]? = some (some p)) ↔
        left ∈ g.nonterminals ∧ right ∈ g.nonterminals)
  pairIndices_eq {k : Nat} {lhs left right : String} {p : PairIndices} :
    g.pairRules[k]? = some (.pair lhs left right) → g.pairIndices[k]? = some (some p) →
      g.index? lhs = some p.lhs ∧ g.index? left = some p.left ∧ g.index? right = some p.right

/-- Rules, if there are any, make a grammar whose tables hold what the rules hold. -/
theorem tablesOf_ofRules (rules : List Rule) (hne : rules ≠ []) :
    ∃ g, ofRules rules = .ok g ∧ g.TablesOf rules := by
  obtain ⟨g, hg⟩ : ∃ g, g = make rules hne := ⟨_, rfl⟩
  have hrules : g.rules = rules.eraseDups := by rw [hg]; rfl
  have hmem (r : Rule) : r ∈ g.rules ↔ r ∈ rules := by rw [hrules, List.mem_eraseDups]
  have horder : InOrderOf rules g.rules := hrules ▸ inOrderOf_eraseDups rules
  have hnonterminals : g.nonterminals = (rules.map Rule.lhs).eraseDups := by
    rw [g.nonterminals_eq, hrules, eraseDups_map_eraseDups]
  refine ⟨g, ofRules_eq_ok_iff.2 ⟨hne, hg⟩, ?_⟩
  constructor
  case mem_wordRules => exact fun r => mem_wordRules.trans (and_congr_left' (hmem r))
  case wordRules_inOrder => exact horder.sublist (g.wordRules_eq ▸ List.filter_sublist)
  case mem_pairRules => exact fun r => mem_pairRules.trans (and_congr_left' (hmem r))
  case pairRules_inOrder => exact horder.sublist (g.pairRules_eq ▸ List.filter_sublist)
  case mem_rules => exact fun r => mem_sortedRules.trans (hmem r)
  case nodup_rules => exact g.nodup_sortedRules
  case mem_nonterminals => intro s; simp only [mem_nonterminals, hmem]
  case nonterminals_inOrder => exact hnonterminals ▸ inOrderOf_eraseDups _
  case nodup_nonterminals => exact g.nodup_nonterminals
  case index?_eq_some => exact fun s i => index?_eq_some_iff
  case index?_eq_none => exact fun s => index?_eq_none_iff
  case alternatives_sublist => exact fun s => g.alternatives_eq s ▸ List.filter_sublist
  case mem_alternatives => exact fun s r => mem_alternatives.trans (and_congr_left' (hmem r))
  case alternatives_ne_nil => exact fun s => alternatives_ne_nil_iff
  case contains_iff => exact fun r => contains_iff.trans (hmem r)
  case length_pairIndices => rw [g.pairIndices_eq, List.length_map]
  case exists_pairIndices =>
    intro k lhs left right hk
    simp only [getElem?_pairIndices hk, Option.some.injEq]
    exact exists_pairIndicesBy_iff (mem_rules_of_getElem? hk)
  case pairIndices_eq =>
    intro k lhs left right p hk hp
    rw [getElem?_pairIndices hk] at hp
    exact pairIndicesBy_eq_some_iff.1 (Option.some.inj hp)

def interleaved : List Rule :=
  [.pair "S" "A" "B", .word "A" "a", .pair "S" "A" "B", .word "B" "b", .word "S" "a",
    .pair "A" "S" "C"]

/-- A pair rule that occurs twice, and one with a child that is no nonterminal. -/
theorem tablesOf_ofRules_interleaved :
    ∃ g, ofRules interleaved = .ok g ∧ g.TablesOf interleaved ∧ g.nonterminals = ["S", "A", "B"] ∧
      g.pairIndices = [some ⟨0, 1, 2⟩, none] := by
  obtain ⟨g, hg, htables⟩ := tablesOf_ofRules interleaved (by decide)
  have hrun : (ofRules interleaved).toOption.map (fun g => (g.nonterminals, g.pairIndices)) =
      some (["S", "A", "B"], [some ⟨0, 1, 2⟩, none]) := by decide +kernel
  rw [hg] at hrun
  obtain ⟨hnonterminals, hpairs⟩ := Prod.mk.inj (Option.some.inj hrun)
  exact ⟨g, hg, htables, hnonterminals, hpairs⟩

/-- The rules leave no choice for their tables. -/
theorem TablesOf.unique {rules : List Rule} {g g' : Grammar} (h : g.TablesOf rules)
    (h' : g'.TablesOf rules) :
    g.wordRules = g'.wordRules ∧ g.pairRules = g'.pairRules ∧ g.nonterminals = g'.nonterminals := by
  refine ⟨h.wordRules_inOrder.eq_of_mem_iff h'.wordRules_inOrder fun r => ?_,
    h.pairRules_inOrder.eq_of_mem_iff h'.pairRules_inOrder fun r => ?_,
    h.nonterminals_inOrder.eq_of_mem_iff h'.nonterminals_inOrder fun s => ?_⟩
  · rw [h.mem_wordRules, h'.mem_wordRules]
  · rw [h.mem_pairRules, h'.mem_pairRules]
  · rw [h.mem_nonterminals, h'.mem_nonterminals]

end Grammar

end TabularParsing
