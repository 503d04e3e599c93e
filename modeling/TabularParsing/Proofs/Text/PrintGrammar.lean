import TabularParsing.Proofs.Grammar.Tables
import TabularParsing.Proofs.Span.Regrouped
import TabularParsing.Proofs.Text.Printed

/-!
# Grammars in Chomsky normal form that are printed and read back

Printing groups the rules by their left-hand sides. What is read back has its rules in that order;
its nonterminals, and the alternatives of each, are those of the grammar that was printed, so the
two grammars have the same charts.

## Main statements

* `Grammar.regrouped_of_rules_eq`: rules in the order in which they are printed.
* `Grammar.same_charts_ofText_text`: printing and reading back.
-/
namespace TabularParsing

/-! ## One rule -/

namespace Rule

def entry (r : Rule) : Format.Entry := ⟨r.lhs, r.symbols⟩

theorem text_eq (r : Rule) : r.text = r.entry.text := by
  obtain ⟨lhs, rhs⟩ := r
  rw [← String.toList_inj, Format.Entry.toList_text]
  cases rhs <;> simp [text, Rhs.text, entry, symbols, Rhs.symbols, Text.spaced]

end Rule

namespace Format

theorem ruleOfTokens_symbols (r : Rule) : ruleOfTokens r.lhs r.symbols = .ok r := by
  obtain ⟨lhs, rhs⟩ := r
  cases rhs <;> rfl

theorem entry_of_ruleOfTokens {lhs : String} {tokens : List String} {r : Rule}
    (h : ruleOfTokens lhs tokens = .ok r) : r.entry = ⟨lhs, tokens⟩ := by
  unfold ruleOfTokens at h
  split at h
  · obtain rfl := Except.ok.inj h
    rfl
  · obtain rfl := Except.ok.inj h
    rfl
  · cases h

theorem readRule_text {r : Rule} (h : r.entry.Printable) : readRule r.text.toList = .ok r := by
  rw [readRule, Rule.text_eq, h.readEntry_text]
  exact ruleOfTokens_symbols r

theorem printable_of_readRule {line : List Char} {r : Rule} (h : readRule line = .ok r)
    (hcomment : ¬ Text.Mentions '/' '/' line) : r.entry.Printable := by
  obtain ⟨e, he, h⟩ := exists_of_bind_ok h
  rw [entry_of_ruleOfTokens h]
  exact printable_of_readEntry he hcomment

end Format

/-! ## Lists without copies -/

section Nodup

theorem flatMap_ite_eq {α β : Type} [DecidableEq α] {as : List α} (h : as.Nodup) (a : α)
    (bs : List β) :
    (as.flatMap fun b => if b = a then bs else []) = if a ∈ as then bs else [] := by
  induction as with
  | nil => rfl
  | cons c as ih =>
    obtain ⟨hc, has⟩ := List.nodup_cons.1 h
    rw [List.flatMap_cons, ih has]
    by_cases hca : c = a
    · subst hca
      simp [hc]
    · simp [hca, Ne.symm hca]

variable {α : Type} [BEq α] [LawfulBEq α]

theorem eraseDups_eq_self {as : List α} (h : as.Nodup) : as.eraseDups = as := by
  induction as with
  | nil => rfl
  | cons a as ih =>
    obtain ⟨ha, has⟩ := List.nodup_cons.1 h
    have hfilter : (as.filter fun b => !b == a) = as :=
      List.filter_eq_self.2 fun b hb => by simpa using fun h : b = a => ha (h ▸ hb)
    rw [List.eraseDups_cons, hfilter, ih has]

/-- Groups of copies, one group for each member. -/
theorem eraseDups_flatMap {as : List α} {f : α → List α} (h : as.Nodup) (hne : ∀ a ∈ as, f a ≠ [])
    (hf : ∀ a ∈ as, ∀ b ∈ f a, b = a) : (as.flatMap f).eraseDups = as := by
  induction as with
  | nil => rfl
  | cons a as ih =>
    obtain ⟨ha, has⟩ := List.nodup_cons.1 h
    obtain ⟨hane, hasne⟩ := List.forall_mem_cons.1 hne
    obtain ⟨hfa, hfas⟩ := List.forall_mem_cons.1 hf
    obtain ⟨b, bs, hbs⟩ := List.exists_cons_of_ne_nil hane
    rw [hbs] at hfa
    obtain ⟨rfl, hbs'⟩ := List.forall_mem_cons.1 hfa
    -- the rest of the group goes, the other groups stay
    have hcopies : (bs.filter fun c => !c == b) = [] :=
      List.filter_eq_nil_iff.2 fun c hc => by simp [hbs' c hc]
    have hothers : ((as.flatMap f).filter fun c => !c == b) = as.flatMap f := by
      refine List.filter_eq_self.2 fun c hc => ?_
      obtain ⟨d, hd, hc⟩ := List.mem_flatMap.1 hc
      rw [hfas d hd c hc]
      simpa using fun h : d = b => ha (h ▸ hd)
    rw [List.flatMap_cons, hbs, List.cons_append, List.eraseDups_cons, List.filter_append, hcopies,
      hothers, List.nil_append, ih has hasne hfas]

end Nodup

namespace Grammar

variable {g g' : Grammar}

/-! ## The order of printing -/

theorem nodup_alternatives (g : Grammar) (s : String) : (g.alternatives s).Nodup :=
  g.alternatives_eq s ▸ g.nodup_sortedRules.filter _

theorem nodup_printedRules (g : Grammar) : g.printedRules.Nodup := by
  refine List.nodup_flatMap.2 ⟨fun s _ => g.nodup_alternatives s, ?_⟩
  refine g.nodup_nonterminals.imp fun {s t} hne r hs ht => hne ?_
  exact (mem_alternatives.1 hs).2.symm.trans (mem_alternatives.1 ht).2

theorem mem_printedRules {r : Rule} : r ∈ g.printedRules ↔ r ∈ g.rules := by
  simp only [printedRules, List.mem_flatMap, mem_alternatives]
  exact ⟨fun ⟨_, _, hr, _⟩ => hr, fun hr => ⟨_, mem_nonterminals.2 ⟨r, hr, rfl⟩, hr, rfl⟩⟩

/-- Printing keeps the rules of a symbol together. -/
theorem filter_printedRules (g : Grammar) (s : String) :
    g.printedRules.filter (fun r => r.lhs == s) = g.alternatives s := by
  have hgroup (t : String) : (g.alternatives t).filter (fun r => r.lhs == s) =
      if t = s then g.alternatives s else [] := by
    split
    · rename_i h
      subst h
      exact List.filter_eq_self.2 fun r hr => by simp [(mem_alternatives.1 hr).2]
    · rename_i h
      exact List.filter_eq_nil_iff.2 fun r hr => by simpa [(mem_alternatives.1 hr).2] using h
  simp only [printedRules, List.filter_flatMap, hgroup, flatMap_ite_eq g.nodup_nonterminals]
  split
  · rfl
  · rename_i hs
    refine (List.eq_nil_iff_forall_not_mem.2 fun r hr => hs ?_).symm
    obtain ⟨hrule, hlhs⟩ := mem_alternatives.1 hr
    exact mem_nonterminals.2 ⟨r, hrule, hlhs⟩

/-- Rules in the order in which they are printed. -/
theorem regrouped_of_rules_eq (h : g'.rules = g.printedRules) : g.Regrouped g' where
  nonterminals := by
    rw [g'.nonterminals_eq, h, printedRules, List.map_flatMap]
    refine eraseDups_flatMap g.nodup_nonterminals (fun s hs => ?_) fun s _ t ht => ?_
    · obtain ⟨r, hr, rfl⟩ := mem_nonterminals.1 hs
      exact List.ne_nil_of_mem (List.mem_map.2 ⟨r, mem_alternatives.2 ⟨hr, rfl⟩, rfl⟩)
    · obtain ⟨r, hr, rfl⟩ := List.mem_map.1 ht
      exact (mem_alternatives.1 hr).2
  alternatives s := by
    rw [alternatives_eq_append, wordRules_eq, pairRules_eq, h, List.filter_comm,
      List.filter_comm _ Rule.isPair, filter_printedRules, ← filter_wordRules, ← filter_pairRules,
      ← alternatives_eq_append]

theorem Regrouped.printedRules_eq (h : g.Regrouped g') : g'.printedRules = g.printedRules := by
  rw [printedRules, printedRules, h.nonterminals, funext h.alternatives]

theorem Regrouped.text_eq (h : g.Regrouped g') : g'.text = g.text := by
  rw [text, text, h.printedRules_eq]

/-! ## Reading back -/

theorem readRules_text {text : String} (h : ofText text = .ok g) :
    Format.readRules g.text = .ok g.printedRules := by
  have hprintable : ∀ r ∈ g.printedRules, r.entry.Printable := by
    intro r hr
    obtain ⟨line, hline, hcomment⟩ := exists_line_of_ofText h (mem_printedRules.1 hr)
    exact Format.printable_of_readRule hline hcomment
  have hcontent : ∀ r ∈ g.printedRules, Text.IsContent r.text.toList := fun r hr =>
    r.text_eq ▸ (hprintable r hr).isContent
  have hread := Format.readLines_join hcontent fun r hr => Format.readRule_text (hprintable r hr)
  rw [Format.readRules, Grammar.text, hread, Except.map, List.map_map]
  exact congrArg Except.ok (List.zipIdx_map_fst 1 g.printedRules)

/-- A grammar that is read from text is printed and read back without fault, with its rules in the
order in which they are printed. The nonterminals are the same in the same order, so they have the
same indices, each has the same alternatives in the same order, and the text is the same. Both
charts of every sentence are the same, cell by cell, whatever the weights of the rules. -/
theorem same_charts_ofText_text {W L : Type} [Zero W] [LT W] [DecidableLT W] [Add L] [LT L]
    [DecidableLT L] {text : String} (h : ofText text = .ok g) :
    ∃ g', ofText g.text = .ok g' ∧ g'.rules = g.printedRules ∧
      g'.nonterminals = g.nonterminals ∧ (∀ s, g'.index? s = g.index? s) ∧
      (∀ s, g'.alternatives s = g.alternatives s) ∧ g'.text = g.text ∧
      (∀ tokens, g'.proofChart tokens = g.proofChart tokens) ∧
      ∀ (scale : LogScale W L) (weights : RuleWeights W) (tokens : List String),
        g'.bestChart scale weights tokens = g.bestChart scale weights tokens := by
  obtain ⟨g', hg', hrules⟩ : ∃ g', ofRules g.printedRules = .ok g' ∧ g'.rules = g.printedRules := by
    have hne : g.printedRules ≠ [] := by
      obtain ⟨r, hr⟩ := List.exists_mem_of_ne_nil _ g.source_ne_nil
      exact List.ne_nil_of_mem (mem_printedRules.2 (List.mem_eraseDups.2 hr))
    exact ⟨_, ofRules_eq_ok_iff.2 ⟨hne, rfl⟩, eraseDups_eq_self g.nodup_printedRules⟩
  have hregrouped := regrouped_of_rules_eq hrules
  refine ⟨g', ?_, hrules, hregrouped.nonterminals, hregrouped.index?_eq, hregrouped.alternatives,
    hregrouped.text_eq, hregrouped.chart_eq _ _, fun _ _ => hregrouped.chart_eq _ _⟩
  rw [ofText, readRules_text h]
  exact hg'

/-- Printing brings the rules into another order. -/
theorem same_charts_ofText_text_interleaved :
    ∃ g, ofText "S -> A B\nA -> B B\nS -> a\nB -> b // a comment\nA -> a" = .ok g ∧
      g.rules ≠ g.printedRules ∧ ∃ g', ofText g.text = .ok g' ∧ g'.rules = g.printedRules ∧
        ∀ (scale : LogScale Float Float) (weights : RuleWeights Float) (tokens : List String),
          g'.bestChart scale weights tokens = g.bestChart scale weights tokens := by
  have hrun : ((ofText "S -> A B\nA -> B B\nS -> a\nB -> b // a comment\nA -> a").toOption.any
      fun g => g.rules != g.printedRules) = true := by decide +kernel
  simp only [Option.any_eq_true, bne_iff_ne, toOption_eq_some_iff] at hrun
  obtain ⟨g, hg, hne⟩ := hrun
  obtain ⟨g', hg', hrules, -, -, -, -, -, hcharts⟩ :=
    same_charts_ofText_text (W := Float) (L := Float) hg
  exact ⟨g, hg, hne, g', hg', hrules, hcharts⟩

end Grammar

end TabularParsing
