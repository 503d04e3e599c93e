import TabularParsing.Proofs.RuleWeights.StickBreaking
import TabularParsing.Proofs.Text.Layout
import TabularParsing.RuleWeights.Text

/-!
# Tables of weights that are printed and read back

A table is printed rule by rule in the order of the rules, each with its weight at the end of its
line. The last token of a line is always the weight, so symbols may look like numbers. The rules of
a table come from lines without comments, as its entries do or those of its grammar, and the table
is read back.

## Main definitions

* `RuleWeights.Printable`: tables that can be told from their lines.
* `RuleWeights.FromText`: tables that come from some text.

## Main statements

* `RuleWeights.FromText.printable`: they can be printed.
* `RuleWeights.Printable.readWeights_text`: what is printed is read back.
* `RuleWeights.same_weights_ofText_text`
-/
namespace TabularParsing

namespace Format

theorem printable_of_readWeight {line : List Char} {r : Rule} {w : Float}
    (h : readWeight line = .ok (r, w)) (hcomment : ¬ Text.Mentions '/' '/' line) :
    r.entry.Printable ∧ InUnit w := by
  obtain ⟨e, he, h⟩ := exists_of_bind_ok h
  cases hlast : splitLast e.tokens with
  | none =>
    rw [hlast] at h
    cases h
  | some split =>
    obtain ⟨symbols, token⟩ := split
    rw [hlast] at h
    obtain ⟨p, hp, h⟩ := exists_of_bind_ok h
    obtain ⟨r', hr, h⟩ := exists_of_bind_ok h
    obtain ⟨rfl, rfl⟩ := Prod.mk.inj (Except.ok.inj h)
    have hprintable := (printable_of_readEntry he hcomment).of_subset (subset_of_splitLast hlast)
    rw [entry_of_ruleOfTokens hr]
    exact ⟨hprintable, inUnit_of_readProbability hp⟩

end Format

namespace RuleWeights

/-! ## What a table holds -/

section Table

variable {W : Type} {t u : RuleWeights W} {es : List (Rule × W)} {r : Rule} {w : W}

/-- Another insertion adds one entry and keeps others. -/
theorem get?_insert_eq_some {s : Rule} {x : W} (h : (t.insert s x).get? r = some w) :
    (r, w) = (s, x) ∨ t.get? r = some w := by
  rw [get?_insert] at h
  split at h
  · rename_i hs
    exact .inl (by rw [hs, Option.some.inj h])
  · exact .inr h

theorem mem_of_get?_foldl_insert
    (h : (es.foldl (fun t e => t.insert e.1 e.2) t).get? r = some w) :
    (r, w) ∈ es ∨ t.get? r = some w := by
  induction es generalizing t with
  | nil => exact .inr h
  | cons e es ih =>
    rcases ih h with h | h
    · exact .inl (List.mem_cons_of_mem _ h)
    · exact (get?_insert_eq_some h).imp_left fun h => List.mem_cons.2 (.inl h)

/-- A table holds nothing but the entries it is made of. -/
theorem mem_of_get?_ofList (h : (ofList es).get? r = some w) : (r, w) ∈ es :=
  (mem_of_get?_foldl_insert h).resolve_right (by simp)

theorem mem_toList_iff : (r, w) ∈ t.toList ↔ t.get? r = some w :=
  Std.TreeMap.mem_toList_iff_getElem?_eq_some

/-- A table is made of its entries. -/
theorem get?_ofList_toList (t : RuleWeights W) (r : Rule) : (ofList t.toList).get? r = t.get? r := by
  have hnodup : (t.toList.map Prod.fst).Nodup := by
    rw [toList, Std.TreeMap.map_fst_toList_eq_keys]
    exact Std.TreeMap.nodup_keys
  ext w
  rw [get?_ofList_eq_some_iff hnodup, mem_toList_iff]

/-- The entries in order are those that are found. -/
theorem toList_eq_iff : t.toList = u.toList ↔ ∀ r, t.get? r = u.get? r := by
  constructor
  · intro h r
    rw [← get?_ofList_toList t, h, get?_ofList_toList]
  · intro h
    exact (Std.TreeMap.Equiv.of_forall_constGet?_eq h).toList_eq

end Table

/-! ## Tables that come from text -/

section Broken

variable {W G : Type} [Zero W] [One W] [Add W] [Sub W] [LT W] [DecidableLT W]
variable {draw : Drawing G W}

/-- One piece, if anything is left, and the rest of the stick. -/
theorem breakStick_cons_cons (r s : Rule) (rs : List Rule) (sum : W) (source : G) :
    breakStick draw (r :: s :: rs) sum source =
      (if 0 < 1 - sum then draw (1 - sum) source else some (0, source)).bind fun p =>
        (breakStick draw (s :: rs) (sum + p.1) p.2).bind fun q => some ((r, p.1) :: q.1, q.2) := by
  rw [breakStick]
  split <;> rfl

/-- The pieces of a stick go to its rules. -/
theorem map_fst_breakStick {rules : List Rule} {sum : W} {source source' : G}
    {pieces : List (Rule × W)} (h : breakStick draw rules sum source = some (pieces, source')) :
    pieces.map Prod.fst = rules := by
  induction rules generalizing sum source pieces with
  | nil =>
    obtain ⟨rfl, -⟩ := Prod.mk.inj (Option.some.inj h)
    rfl
  | cons r rules ih => cases rules with
    | nil =>
      obtain ⟨rfl, -⟩ := Prod.mk.inj (Option.some.inj h)
      rfl
    | cons s rules =>
      rw [breakStick_cons_cons] at h
      obtain ⟨⟨piece, source₁⟩, -, h⟩ := Option.bind_eq_some_iff.1 h
      obtain ⟨⟨others, source₂⟩, hothers, h⟩ := Option.bind_eq_some_iff.1 h
      obtain ⟨rfl, rfl⟩ := Prod.mk.inj (Option.some.inj h)
      rw [List.map_cons, ih hothers]

theorem map_fst_breakSticks {g : Grammar} {symbols : List String} {source source' : G}
    {pieces : List (Rule × W)}
    (h : breakSticks draw g symbols source = some (pieces, source')) :
    pieces.map Prod.fst = symbols.flatMap g.alternatives := by
  induction symbols generalizing source source' pieces with
  | nil =>
    obtain ⟨rfl, -⟩ := Prod.mk.inj (Option.some.inj h)
    rfl
  | cons symbol symbols ih =>
    rw [breakSticks] at h
    obtain ⟨⟨stick, source₁⟩, hstick, h⟩ := Option.bind_eq_some_iff.1 h
    obtain ⟨⟨others, source₂⟩, hothers, h⟩ := Option.bind_eq_some_iff.1 h
    obtain ⟨rfl, -⟩ := Prod.mk.inj (Option.some.inj h)
    rw [List.map_append, map_fst_breakStick hstick, ih hothers, List.flatMap_cons]

/-- Whatever is drawn, only rules of the grammar get weights. -/
theorem mem_rules_of_byStickBreaking {g : Grammar} {source source' : G} {t : RuleWeights W}
    (h : byStickBreaking draw g source = some (t, source')) {r : Rule} {w : W}
    (hr : t.get? r = some w) : r ∈ g.rules := by
  obtain ⟨⟨pieces, source₁⟩, hpieces, h⟩ := Option.map_eq_some_iff.1 h
  obtain ⟨rfl, -⟩ := Prod.mk.inj h
  have hmem : r ∈ pieces.map Prod.fst := List.mem_map_of_mem (mem_of_get?_ofList hr)
  rw [map_fst_breakSticks hpieces] at hmem
  exact Grammar.mem_printedRules.1 hmem

end Broken

theorem get?_ones_eq_some {W : Type} [One W] {g : Grammar} {r : Rule} {w : W}
    (h : (ones g).get? r = some w) : r ∈ g.rules ∧ w = 1 := by
  obtain ⟨s, hs, hsr⟩ := List.mem_map.1 (mem_of_get?_ofList h)
  obtain ⟨rfl, rfl⟩ := Prod.mk.inj hsr
  exact ⟨Grammar.mem_sortedRules.1 hs, rfl⟩

/-- Tables that are read from text, and those of grammars that are read from text: with weight one
for each rule, or broken from sticks, whatever is drawn, if the weights lie between zero and one. -/
inductive FromText : RuleWeights Float → Prop where
  | read {text : String} {t : RuleWeights Float} : ofText text = .ok t → FromText t
  | ones {text : String} {g : Grammar} : Grammar.ofText text = .ok g → FromText (ones g)
  | broken {G : Type} {text : String} {g : Grammar} {draw : Drawing G Float} {source source' : G}
      {t : RuleWeights Float} : Grammar.ofText text = .ok g →
      byStickBreaking draw g source = some (t, source') →
      (∀ r w, t.get? r = some w → InUnit w) → FromText t

/-- A table that can be told from its lines. -/
def Printable (t : RuleWeights Float) : Prop :=
  ∀ r w, t.get? r = some w → r.entry.Printable ∧ InUnit w

theorem printable_of_ofText {text : String} {t : RuleWeights Float} (h : ofText text = .ok t) :
    t.Printable := by
  intro r w hr
  unfold ofText at h
  cases hes : Format.readWeights text with
  | error e =>
    rw [hes] at h
    cases h
  | ok es =>
    rw [hes] at h
    obtain rfl := Except.ok.inj h
    obtain ⟨line, hline, hcomment⟩ :=
      Format.exists_of_mem_map_readLines hes (mem_of_get?_ofList hr)
    exact Format.printable_of_readWeight hline hcomment

theorem FromText.printable {t : RuleWeights Float} (h : FromText t) : t.Printable := by
  have hrules {text : String} {g : Grammar} (hg : Grammar.ofText text = .ok g) {r : Rule}
      (hr : r ∈ g.rules) : r.entry.Printable := by
    obtain ⟨line, hline, hcomment⟩ := Grammar.exists_line_of_ofText hg hr
    exact Format.printable_of_readRule hline hcomment
  intro r w hr
  cases h with
  | read ht => exact printable_of_ofText ht r w hr
  | ones hg =>
    obtain ⟨hrule, rfl⟩ := get?_ones_eq_some hr
    exact ⟨hrules hg hrule, Double.unitProducts_double.inUnit_one⟩
  | broken hg hbroken hunit =>
    exact ⟨hrules hg (mem_rules_of_byStickBreaking hbroken hr), hunit r w hr⟩

/-! ## Reading back -/

/-- The line of a rule with its weight. -/
def entryText (e : Rule × Float) : String := e.1.text ++ " " ++ Decimal.plain e.2

theorem entryText_eq (r : Rule) (w : Format.WrittenWeight) (hw : w.token = Decimal.plain w.value) :
    entryText (r, w.value) = (Format.entryWith r w).text := by
  rw [entryText, Rule.text_eq, ← hw]
  simp [Format.Entry.text, Format.entryWith, Rule.entry]

variable {t : RuleWeights Float}

/-- What is printed is read back, if the weights are numbers that are read as they are printed. -/
theorem Printable.readWeights_text (ht : t.Printable)
    (hnumbers : ∀ r w, t.get? r = some w → Decimal.read? (Decimal.plain w) = some w) :
    Format.readWeights t.text = .ok t.toList := by
  have hlines : ∀ e ∈ t.toList, Text.IsContent (entryText e).toList ∧
      Format.readWeight (entryText e).toList = .ok e := by
    rintro ⟨r, w⟩ he
    have hget := mem_toList_iff.1 he
    obtain ⟨hrule, hunit⟩ := ht r w hget
    let written : Format.WrittenWeight := ⟨Decimal.plain w, w, hnumbers r w hget, hunit⟩
    have hprintable : (Format.entryWith r written).Printable := hrule.concat_weight written
    rw [entryText_eq r written rfl]
    exact ⟨hprintable.isContent, Format.readWeight_of_readEntry hprintable.readEntry_text⟩
  have hread := Format.readLines_join (fun e he => (hlines e he).1) fun e he => (hlines e he).2
  have htext : t.text = String.join (t.toList.map fun e => entryText e ++ "\n") := rfl
  rw [Format.readWeights, htext, hread, Except.map, List.map_map]
  exact congrArg Except.ok (List.zipIdx_map_fst 1 t.toList)

/-- A table that comes from text is printed and read back without fault, with the same weights for
the same rules, if the weights are numbers that are read as they are printed. Tables that have the
same weights for the same rules are printed in the same way, whatever was inserted in which order. -/
theorem same_weights_ofText_text :
    (∀ t : RuleWeights Float, FromText t →
      (∀ r w, t.get? r = some w → Decimal.read? (Decimal.plain w) = some w) →
      ∃ t', ofText t.text = .ok t' ∧ ∀ r, t'.get? r = t.get? r) ∧
    ∀ t u : RuleWeights Float, (∀ r, t.get? r = u.get? r) → t.text = u.text := by
  refine ⟨fun t ht hnumbers => ?_, fun t u h => ?_⟩
  · refine ⟨ofList t.toList, ?_, get?_ofList_toList t⟩
    rw [ofText, ht.printable.readWeights_text hnumbers]
    rfl
  · rw [text, text, toList_eq_iff.2 h]

/-- Symbols that look like numbers and arrows, and a weight that is given twice. -/
def lookalikes : String := "S -> 1 2 0.5\nA- -> -> .1 // or\nS -> 1 0.25\nS -> 1 2 0.75"

/-- The same table in order, and one that is broken from a stick. -/
theorem same_weights_ofText_text_lookalikes :
    (∃ t u, ofText lookalikes = .ok t ∧ ofText "A- -> -> 0.1\nS -> 1 2 .75\nS -> 1 .25" = .ok u ∧
      t.text = u.text ∧ ∃ t', ofText t.text = .ok t' ∧ ∀ r, t'.get? r = t.get? r) ∧
    ∃ g t, Grammar.ofText "S -> 1\nS -> 1 2\nS -> ->" = .ok g ∧
      (byStickBreaking WordSource.drawFloat g ⟨.listed [0x8000000000000000], 0⟩).map Prod.fst =
        some t ∧ ∃ t', ofText t.text = .ok t' ∧ ∀ r, t'.get? r = t.get? r := by
  constructor
  · have hrun : ((ofText lookalikes).toOption.any fun t =>
        (ofText "A- -> -> 0.1\nS -> 1 2 .75\nS -> 1 .25").toOption.any fun u =>
          decide (t.toList = u.toList) && t.toList.all fun e =>
            Decimal.read? (Decimal.plain e.2) = some e.2) = true := by decide +kernel
    simp only [Option.any_eq_true, toOption_eq_some_iff, Bool.and_eq_true, decide_eq_true_eq,
      List.all_eq_true] at hrun
    obtain ⟨t, ht, u, hu, htu, hnumbers⟩ := hrun
    exact ⟨t, u, ht, hu, same_weights_ofText_text.2 t u (toList_eq_iff.1 htu),
      same_weights_ofText_text.1 t (.read ht) fun r w hr => hnumbers (r, w) (mem_toList_iff.2 hr)⟩
  · have hrun : ((Grammar.ofText "S -> 1\nS -> 1 2\nS -> ->").toOption.any fun g =>
        (byStickBreaking WordSource.drawFloat g ⟨.listed [0x8000000000000000], 0⟩).any fun p =>
          p.1.toList.all fun e =>
            decide (0 ≤ e.2 ∧ e.2 ≤ 1) && decide (Decimal.read? (Decimal.plain e.2) = some e.2)) =
        true := by decide +kernel
    simp only [Option.any_eq_true, toOption_eq_some_iff, Bool.and_eq_true, decide_eq_true_eq,
      List.all_eq_true] at hrun
    obtain ⟨g, hg, ⟨t, source⟩, hbroken, hentries⟩ := hrun
    have hentries {r : Rule} {w : Float} (hr : t.get? r = some w) :
        InUnit w ∧ Decimal.read? (Decimal.plain w) = some w :=
      hentries (r, w) (mem_toList_iff.2 hr)
    exact ⟨g, t, hg, by rw [hbroken]; rfl, same_weights_ofText_text.1 t
      (.broken hg hbroken fun r w hr => (hentries hr).1) fun r w hr => (hentries hr).2⟩

end RuleWeights

end TabularParsing
