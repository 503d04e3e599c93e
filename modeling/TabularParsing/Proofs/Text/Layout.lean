import TabularParsing.Proofs.Decimal.Numerals
import TabularParsing.Proofs.Text.PrintGrammar
import TabularParsing.Proofs.Text.PrintWeighted
import TabularParsing.Proofs.Text.Spacing

/-!
# Layouts

An entry may stand on its line with any blanks around it and between its symbols, and a comment
behind it; lines without an entry may stand between those of the entries. However a text lays out
its entries, they are read as they were written, with the numbers of their lines.

## Main definitions

* `Format.Shows`: a line that shows an entry.
* `Format.LaysOut`: a text whose lines show entries.
* `Format.WrittenWeight`, `Format.WrittenRule`: weights, and rules with or without a weight.

## Main statements

* `Format.Shows.readEntry_content`: what a line that shows an entry holds.
* `Format.LaysOut.reads`: the lines of a text.
* `Format.readLines_of_laysOut`: one format.
* `Format.readers_of_laysOut`: the three formats.
-/
namespace TabularParsing

namespace Format

open Text

/-! ## Lines and texts -/

/-- A line that shows an entry. There may be blanks around the arrow, or none. -/
inductive Shows : Entry → List Char → Prop where
  | mk {lhs : String} {tokens : List String} {indent before after cs tail : List Char} :
      IsGap indent → IsGap before → IsGap after → SpreadOut tokens cs → IsTail tail →
      Shows ⟨lhs, tokens⟩
        (indent ++ (lhs.toList ++ before ++ '-' :: '>' :: (after ++ cs)) ++ tail)

/-- A line and the entry that it shows; blank lines and comments show none. -/
inductive IsLine : Option Entry → List Char → Prop where
  | entry {e : Entry} {line : List Char} : Shows e line → IsLine (some e) line
  | blank {gap : List Char} : IsGap gap → IsLine none gap
  | comment {gap cs : List Char} : IsGap gap → '\n' ∉ cs → IsLine none (gap ++ '/' :: '/' :: cs)

/-- A text whose lines show entries, given with the numbers of their lines, which begin with `n`.
The last line has no line end. -/
inductive LaysOut : Nat → List (Nat × Entry) → List Char → Prop where
  | last {n : Nat} {o : Option Entry} {line : List Char} : IsLine o line →
      LaysOut n (o.toList.map fun e => (n, e)) line
  | line {n : Nat} {o : Option Entry} {line lineEnd : List Char} {es : List (Nat × Entry)}
      {text : List Char} : IsLine o line → lineEnd ∈ [['\n'], ['\r', '\n']] →
      LaysOut (n + 1) es text →
      LaysOut n ((o.toList.map fun e => (n, e)) ++ es) (line ++ lineEnd ++ text)

/-- A comment, a blank line, and two rules, the second on a line without an end. Symbols look like
arrows and numbers. -/
def lookalikes (last : String) : String :=
  "// words\r\n\n\u3000A-->->\t0.25 // or\r\nb  ->1 " ++ last

theorem laysOut_lookalikes (last : String) :
    LaysOut 1 [(3, ⟨"A-", ["->", "0.25"]⟩), (4, ⟨"b", ["1", last]⟩)] (lookalikes last).toList := by
  have hspace : IsGap [' '] := isGap_nil.cons (by decide) (by decide)
  have hcomment : IsLine none ([] ++ '/' :: '/' :: " words".toList) :=
    .comment isGap_nil (by simp)
  have hfirst : IsLine (some ⟨"A-", ["->", "0.25"]⟩)
      (['\u3000'] ++ ("A-".toList ++ [] ++ '-' :: '>' :: ([] ++ ("->".toList ++ ['\t'] ++
        "0.25".toList))) ++ ([' '] ++ '/' :: '/' :: " or".toList)) :=
    .entry (.mk (isGap_nil.cons (by decide) (by decide)) isGap_nil isGap_nil
      (.cons _ (isGap_nil.cons (by decide) (by decide)) (by simp) (.last _))
      (.comment hspace (by simp) (by simp)))
  have hlast : IsLine (some ⟨"b", ["1", last]⟩)
      ([] ++ ("b".toList ++ [' ', ' '] ++ '-' :: '>' :: ([] ++ ("1".toList ++ [' '] ++
        last.toList))) ++ []) :=
    .entry (.mk isGap_nil (hspace.cons (by decide) (by decide)) isGap_nil
      (.cons _ hspace (by simp) (.last _)) (.blanks isGap_nil))
  have hreturn : ['\r', '\n'] ∈ [['\n'], ['\r', '\n']] := by simp
  have hrules := LaysOut.line (n := 3) hfirst hreturn (.last hlast)
  have hlines := LaysOut.line (n := 1) hcomment hreturn
    (.line (.blank isGap_nil) List.mem_cons_self hrules)
  have htext : (lookalikes last).toList = [] ++ '/' :: '/' :: " words".toList ++ ['\r', '\n'] ++
      ([] ++ ['\n'] ++ (['\u3000'] ++ ("A-".toList ++ [] ++ '-' :: '>' :: ([] ++ ("->".toList ++
        ['\t'] ++ "0.25".toList))) ++ ([' '] ++ '/' :: '/' :: " or".toList) ++ ['\r', '\n'] ++
        ([] ++ ("b".toList ++ [' ', ' '] ++ '-' :: '>' :: ([] ++ ("1".toList ++ [' '] ++
          last.toList))) ++ []))) := by
    unfold lookalikes
    simp
  rw [htext]
  exact hlines

/-! ## What is read from a line -/

section Line

variable {lhs : String} {tokens : List String} {before after cs : List Char}

theorem isContent_core (h : Entry.Printable ⟨lhs, tokens⟩) (hbefore : IsGap before)
    (hafter : IsGap after) (hcs : SpreadOut tokens cs) :
    IsContent (lhs.toList ++ before ++ '-' :: '>' :: (after ++ cs)) := by
  obtain ⟨hlhs, htokens⟩ := List.forall_mem_cons.1 h.no_comment
  have hleft := h.lhs.isContent hlhs
  have hright := hcs.isContent fun s hs => ⟨h.tokens s hs, htokens s hs⟩
  refine ⟨?_, ?_, ?_, fun hcomment => ?_⟩
  · rw [List.append_assoc]
    exact beginsWord_append hleft.begins _
  · simp only [List.reverse_append, List.reverse_cons, List.append_assoc]
    exact beginsWord_append hright.ends _
  · simp [hleft.no_feed, hbefore.no_feed, hafter.no_feed, hright.no_feed]
  · rcases hcomment.of_append_cons (by decide) (by decide) with hcomment | hcomment
    · exact hleft.no_comment (hcomment.of_append_blanks (by decide) (by decide) hbefore.blank)
    · have hcomment : Mentions '/' '/' ([] ++ '>' :: (after ++ cs)) := hcomment
      have hrest := (hcomment.of_append_cons (by decide) (by decide)).resolve_left not_mentions_nil
      exact hright.no_comment (hrest.of_blanks_append (by decide) (by decide) hafter.blank)

/-- Blanks around the arrow are no matter, nor are those between the tokens. -/
theorem readEntry_core (h : Entry.Printable ⟨lhs, tokens⟩) (hbefore : IsGap before)
    (hafter : IsGap after) (hcs : SpreadOut tokens cs) :
    readEntry (lhs.toList ++ before ++ '-' :: '>' :: (after ++ cs)) = .ok ⟨lhs, tokens⟩ := by
  have harrow : ¬ Mentions '-' '>' (lhs.toList ++ before) := fun harrow =>
    h.no_arrow (harrow.of_append_blanks (by decide) (by decide) hbefore.blank)
  have htrimmed : trimmed (lhs.toList ++ before) = lhs.toList := by
    rw [trimmed_append_blanks hbefore.blank, trimmed_eq h.lhs.beginsWord h.lhs.beginsWord_reverse]
  have hwords : wordsOf (after ++ cs) = tokens.map String.toList := by
    rw [wordsOf_blanks_append hafter.blank, hcs.wordsOf_eq h.tokens]
  rw [readEntry, splitArrow_append harrow]
  simp [htrimmed, h.lhs.wordsOf_toList, hwords]

theorem Shows.no_feed {e : Entry} {line : List Char} (h : Shows e line) (he : e.Printable) :
    '\n' ∉ line := by
  obtain ⟨hindent, hbefore, hafter, hcs, htail⟩ := h
  have hcore := isContent_core he hbefore hafter hcs
  rw [List.mem_append, List.mem_append, not_or, not_or]
  exact ⟨⟨hindent.no_feed, hcore.no_feed⟩, htail.no_feed⟩

/-- What a line holds that shows an entry is read as that entry. -/
theorem Shows.readEntry_content {e : Entry} {line : List Char} (h : Shows e line)
    (he : e.Printable) : content line ≠ [] ∧ readEntry (content line) = .ok e := by
  obtain ⟨hindent, hbefore, hafter, hcs, htail⟩ := h
  have hcore := isContent_core he hbefore hafter hcs
  rw [hcore.content_eq hindent htail]
  exact ⟨hcore.ne_nil, readEntry_core he hbefore hafter hcs⟩

end Line

/-! ## What is read from a text -/

/-- A line that holds an entry, both with their numbers. -/
def Reads (p : Nat × List Char) (e : Nat × Entry) : Prop := p.1 = e.1 ∧ readEntry p.2 = .ok e.2

theorem IsLine.no_feed {o : Option Entry} {line : List Char} (h : IsLine o line)
    (ho : ∀ e ∈ o, e.Printable) : '\n' ∉ line := by
  cases h with
  | entry hshows => exact hshows.no_feed (ho _ rfl)
  | blank hgap => exact hgap.no_feed
  | comment hgap hcs => simp [hgap.no_feed, hcs]

theorem IsLine.reads {o : Option Entry} {line : List Char} (h : IsLine o line)
    (ho : ∀ e ∈ o, e.Printable) (n : Nat) :
    List.Forall₂ Reads (filledLine n line) (o.toList.map fun e => (n, e)) := by
  cases h with
  | entry hshows =>
    obtain ⟨hne, hread⟩ := hshows.readEntry_content (ho _ rfl)
    rw [filledLine, if_neg hne]
    exact .cons ⟨rfl, hread⟩ .nil
  | blank hgap =>
    rw [filledLine, if_pos (content_of_isGap hgap)]
    exact .nil
  | comment hgap _ =>
    rw [filledLine, if_pos (content_comment hgap _)]
    exact .nil

/-- The lines of a text that hold something are those of its entries. -/
theorem LaysOut.reads {n : Nat} {es : List (Nat × Entry)} {text : List Char}
    (h : LaysOut n es text) (hes : ∀ e ∈ es, e.2.Printable) :
    List.Forall₂ Reads (filledFrom n text) es := by
  induction h with
  | @last n o line hline =>
    have ho : ∀ e ∈ o, e.Printable := fun e he => hes (n, e) (by simpa using he)
    rw [filledFrom_of_last (hline.no_feed ho)]
    exact hline.reads ho n
  | @line n o line lineEnd es text hline hend _ ih =>
    have ho : ∀ e ∈ o, e.Printable := fun e he =>
      hes (n, e) (List.mem_append_left _ (by simpa using he))
    have hfeed := hline.no_feed ho
    have hrest := ih fun e he => hes e (List.mem_append_right _ he)
    have hfilled : filledFrom n (line ++ lineEnd ++ text) =
        filledLine n line ++ filledFrom (n + 1) text := by
      simp only [List.mem_cons, List.not_mem_nil, or_false] at hend
      rcases hend with rfl | rfl
      · rw [List.append_assoc]
        exact filledFrom_of_feed hfeed n text
      · have hreturn : '\n' ∉ line ++ ['\r'] := by simp [hfeed]
        have hline : filledLine n (line ++ ['\r']) = filledLine n line := by
          rw [filledLine, filledLine, content_append_return]
        rw [← hline, ← filledFrom_of_feed hreturn]
        simp
    rw [hfilled]
    exact List.rel_append (hline.reads ho n) hrest

/-- A format whose entries are written in some way, and mean something, reads what was meant from
any layout. -/
theorem readLines_of_laysOut {α β : Type} {read : List Char → Except FormatFault β}
    (write : α → Entry) (meaning : α → β) {es : List (Nat × α)} {text : String}
    (hes : ∀ e ∈ es, (write e.2).Printable)
    (hread : ∀ e ∈ es, ∀ line, readEntry line = .ok (write e.2) → read line = .ok (meaning e.2))
    (h : LaysOut 1 (es.map fun e => (e.1, write e.2)) text.toList) :
    readLines read text = .ok (es.map fun e => (e.1, meaning e.2)) := by
  have hreads := h.reads (List.forall_mem_map.2 hes)
  rw [readLines_eq, filledLines_eq]
  generalize filledFrom 1 text.toList = ls at hreads
  clear h
  induction es generalizing ls with
  | nil =>
    cases hreads
    rfl
  | cons e es ih =>
    obtain ⟨_, hes⟩ := List.forall_mem_cons.1 hes
    obtain ⟨he, hread⟩ := List.forall_mem_cons.1 hread
    cases hreads with
    | @cons p _ ls _ hp hreads =>
      obtain ⟨hn, hp⟩ := hp
      have hline : readNumbered read p = .ok (e.1, meaning e.2) := by
        rw [readNumbered, he p.2 hp, hn]
      rw [List.mapM_cons, hline, ih hes hread ls hreads]
      rfl

/-! ## The three formats -/

/-- A weight as it is written: a token that reads as a number from zero to one. -/
structure WrittenWeight where
  token : String
  value : Float
  reads : Decimal.read? token = some value
  inUnit : InUnit value

def quarter : WrittenWeight :=
  ⟨"0.25", 0.25, by decide +kernel, by decide +kernel, by decide +kernel⟩

def half : WrittenWeight := ⟨".5", 0.5, by decide +kernel, by decide +kernel, by decide +kernel⟩

/-- A rule as it is written, with or without a weight. -/
structure WrittenRule where
  lhs : String
  symbols : List String
  weight? : Option WrittenWeight

namespace WrittenRule

def entry (r : WrittenRule) : Entry := ⟨r.lhs, r.symbols ++ r.weight?.toList.map WrittenWeight.token⟩

/-- What is meant by a rule as it is written: a weight that is left out is one. -/
def meaning (r : WrittenRule) : WeightedEntry :=
  ⟨r.lhs, r.symbols, (r.weight?.map WrittenWeight.value).getD 1.0⟩

/-- A rule that can be told from its line. Without a weight its last symbol must not look like
one. -/
structure Printable (r : WrittenRule) : Prop where
  entry : Entry.Printable ⟨r.lhs, r.symbols⟩
  symbols_ne_nil : r.symbols ≠ []
  last : r.weight? = none → ∀ s ∈ r.symbols.getLast?, Decimal.read? s = none

end WrittenRule

/-- The entry of a rule with its weight behind it. -/
def entryWith (r : Rule) (w : WrittenWeight) : Entry := ⟨r.lhs, r.symbols ++ [w.token]⟩

theorem Entry.Printable.concat_weight {lhs : String} {symbols : List String}
    (h : Entry.Printable ⟨lhs, symbols⟩) (w : WrittenWeight) :
    Entry.Printable ⟨lhs, symbols ++ [w.token]⟩ :=
  h.concat (Decimal.isWord_of_read? w.reads) (Decimal.not_mentions_of_read? w.reads)

theorem WrittenRule.Printable.entry_printable {r : WrittenRule} (h : r.Printable) :
    r.entry.Printable := by
  obtain ⟨lhs, symbols, weight?⟩ := r
  cases weight? with
  | none => simpa [WrittenRule.entry] using h.entry
  | some w => exact h.entry.concat_weight w

section Read

variable {line : List Char}

theorem readRule_of_readEntry {r : Rule} (h : readEntry line = .ok r.entry) :
    readRule line = .ok r := by
  rw [readRule, h]
  exact ruleOfTokens_symbols r

theorem readWeight_of_readEntry {r : Rule} {w : WrittenWeight}
    (h : readEntry line = .ok (entryWith r w)) : readWeight line = .ok (r, w.value) := by
  rw [readWeight, h]
  simp only [bind, Except.bind, entryWith, splitLast_concat, readProbability_eq w.reads w.inUnit,
    ruleOfTokens_symbols]
  rfl

/-- A last token that is no number is a symbol, and the weight is one. -/
theorem splitWeight_of_last {symbols : List String}
    (h : ∀ s ∈ symbols.getLast?, Decimal.read? s = none) :
    splitWeight symbols = .ok (symbols, 1.0) := by
  rw [splitWeight, splitLast]
  cases hlast : symbols.getLast? with
  | none => rw [List.getLast?_eq_none_iff.1 hlast]; rfl
  | some s => simp [h s hlast]

theorem readWeighted_of_readEntry {r : WrittenRule} (hr : r.Printable)
    (h : readEntry line = .ok r.entry) : readWeighted line = .ok r.meaning := by
  obtain ⟨lhs, symbols, weight?⟩ := r
  have hsplit : splitWeight (WrittenRule.entry ⟨lhs, symbols, weight?⟩).tokens =
      .ok (symbols, (weight?.map WrittenWeight.value).getD 1.0) := by
    cases weight? with
    | none => simpa [WrittenRule.entry] using splitWeight_of_last (hr.last rfl)
    | some w => exact splitWeight_concat w.reads w.inUnit
  rw [readWeighted, h]
  simp only [bind, Except.bind, hsplit]
  exact if_neg (by simpa using hr.symbols_ne_nil)

end Read

/-- However a text lays out its entries line by line, each of the three formats reads them in their
order as they were written: rules, rules with a weight between zero and one, and rules of any number
of symbols with or without such a weight, which come with the numbers of their lines. Symbols may
look like arrows or numbers; only the left-hand side holds no arrow, and the last symbol of a rule
without a weight is no number. -/
theorem readers_of_laysOut :
    (∀ (es : List (Nat × Rule)) (text : String), (∀ e ∈ es, e.2.entry.Printable) →
      LaysOut 1 (es.map fun e => (e.1, e.2.entry)) text.toList →
      readRules text = .ok (es.map fun e => e.2)) ∧
    (∀ (es : List (Nat × Rule × WrittenWeight)) (text : String),
      (∀ e ∈ es, e.2.1.entry.Printable) →
      LaysOut 1 (es.map fun e => (e.1, entryWith e.2.1 e.2.2)) text.toList →
      readWeights text = .ok (es.map fun e => (e.2.1, e.2.2.value))) ∧
    ∀ (es : List (Nat × WrittenRule)) (text : String), (∀ e ∈ es, e.2.Printable) →
      LaysOut 1 (es.map fun e => (e.1, e.2.entry)) text.toList →
      readWeightedRules text = .ok (es.map fun e => (e.1, e.2.meaning)) := by
  refine ⟨fun es text hes h => ?_, fun es text hes h => ?_, fun es text hes h => ?_⟩
  · have hread := readLines_of_laysOut Rule.entry id hes
      (fun e _ line hline => readRule_of_readEntry hline) h
    simp [readRules, hread, Except.map]
  · have hread := readLines_of_laysOut (fun e : Rule × WrittenWeight => entryWith e.1 e.2)
      (fun e => (e.1, e.2.value)) (fun e he => (hes e he).concat_weight e.2.2)
      (fun e _ line hline => readWeight_of_readEntry hline) h
    simp [readWeights, hread, Except.map]
  · exact readLines_of_laysOut WrittenRule.entry WrittenRule.meaning
      (fun e he => (hes e he).entry_printable)
      (fun e he line hline => readWeighted_of_readEntry (hes e he) hline) h

theorem readers_of_laysOut_lookalikes :
    readRules (lookalikes ".5") = .ok [.pair "A-" "->" "0.25", .pair "b" "1" ".5"] ∧
    readWeights (lookalikes ".5") = .ok [(.word "A-" "->", 0.25), (.word "b" "1", 0.5)] ∧
    readWeightedRules (lookalikes "x") =
      .ok [(3, ⟨"A-", ["->"], 0.25⟩), (4, ⟨"b", ["1", "x"], 1.0⟩)] := by
  refine ⟨readers_of_laysOut.1 [(3, .pair "A-" "->" "0.25"), (4, .pair "b" "1" ".5")] _ ?_
      (laysOut_lookalikes ".5"),
    readers_of_laysOut.2.1 [(3, .word "A-" "->", quarter), (4, .word "b" "1", half)] _ ?_
      (laysOut_lookalikes ".5"),
    readers_of_laysOut.2.2 [(3, ⟨"A-", ["->"], some quarter⟩), (4, ⟨"b", ["1", "x"], none⟩)] _ ?_
      (laysOut_lookalikes "x")⟩
  · decide +kernel
  · decide +kernel
  · have hlast : Decimal.read? "x" = none := by decide +kernel
    simp only [List.forall_mem_cons, List.not_mem_nil, false_imp_iff, implies_true, and_true]
    exact ⟨⟨by decide +kernel, by simp, by simp⟩, ⟨by decide +kernel, by simp, by simp [hlast]⟩⟩

end Format

end TabularParsing
