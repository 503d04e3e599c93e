import TabularParsing.Proofs.BestScore
import TabularParsing.Proofs.Span.Correspondence

/-!
# Best scores and first proofs

The chart of best scores, for weights of whatever kind, sets the cells that derivations by rules
above zero reach. If all rules weigh more than zero these are the cells of the chart of first
proofs; if all rules weigh one the two charts hold the same backpointers, for a score that equals
the old one never replaces it.

## Main definitions

* `LogScale.Separated`: what is asked of scores of arbitrary weights.
* `Grammar.SumsHold`: no sum that the chart of a sentence calls for falls back to `never`.

## Main statement

* `Grammar.bestChart_agrees_with_proofChart`
-/
namespace TabularParsing

variable {W L : Type} [Zero W] [LT W]

/-- Weights above zero score above `never`, and so do sums of such scores unless they are `never`
themselves. The score of one is its own double. -/
structure LogScale.Separated [One W] [Add L] [LT L] (scale : LogScale W L) : Prop where
  not_never_lt : ¬scale.never < scale.never
  never_lt_log : ∀ w : W, 0 < w → scale.never < scale.log w
  never_lt_add : ∀ {x y : L}, scale.never < x → scale.never < y → x + y ≠ scale.never →
    scale.never < x + y
  zero_lt_one : (0 : W) < 1
  log_one_add : scale.log 1 + scale.log 1 = scale.log 1
  not_log_one_lt : ¬scale.log 1 < scale.log 1

variable [DecidableLT W]

namespace Grammar

variable [One W] [Add L] [LT L] [DecidableLT L]
variable {g : Grammar} {scale : LogScale W L} {weights : RuleWeights W} {tokens : List String}

/-- Neither step of a sum over two cells that lie side by side, with a pair rule above zero between
them, leads to `never`. -/
def SumsHold (g : Grammar) (scale : LogScale W L) (weights : RuleWeights W)
    (tokens : List String) : Prop :=
  ∀ ⦃lhs left right : String⦄ ⦃first mid last b c : Nat⦄ ⦃x y : BestCell L⦄,
    .pair lhs left right ∈ g.rules → 0 < weights.get (.pair lhs left right) →
    g.index? left = some b → g.index? right = some c →
    (g.bestChart scale weights tokens).get? ⟨first, mid, b⟩ = some x →
    (g.bestChart scale weights tokens).get? ⟨mid + 1, last, c⟩ = some y →
    x.score + scale.log (weights.get (.pair lhs left right)) ≠ scale.never ∧
      x.score + scale.log (weights.get (.pair lhs left right)) + y.score ≠ scale.never

omit [One W] in
/-- What scores `never` is not kept. -/
theorem never_lt_score_of_get? {k : Constituent} {x : BestCell L}
    (hx : (g.bestChart scale weights tokens).get? k = some x) : scale.never < x.score := by
  obtain ⟨first, last, a⟩ := k
  obtain ⟨lhs, ha⟩ := exists_symbol (Admits.valid_of_get?_chart hx).2.2.2
  rcases Admits.offered_of_get?_chart ha hx with ⟨w, -, -, -, hx⟩ | ⟨-, mid, n, hoffer⟩
  · exact never_lt_of_leaf hx
  · obtain ⟨-, -, -, -, -, -, -, hx⟩ := hoffer
    exact never_lt_of_split hx

omit [One W] in
/-- Sums hold for every sentence where no two scores above `never` add up to it. -/
theorem sumsHold_of_add_ne (hlog : ∀ w : W, 0 < w → scale.never < scale.log w)
    (hadd : ∀ {x y : L}, scale.never < x → scale.never < y → scale.never < x + y)
    (hne : ∀ {x : L}, scale.never < x → x ≠ scale.never) :
    g.SumsHold scale weights tokens := by
  intro lhs left right first mid last b c x y _ hw _ _ hx hy
  have hsum := hadd (never_lt_score_of_get? hx) (hlog _ hw)
  exact ⟨hne hsum, hne (hadd hsum (never_lt_score_of_get? hy))⟩

/-- Sets a cell wherever a rule that is not barred can. -/
def reach : CellPolicy Unit Bool where
  leaf usable _ := if usable then some () else none
  split usable _ _ _ _ := if usable then some () else none
  beats _ _ := false

theorem admits_reach (g : Grammar) (usable : Rule → Prop) [DecidablePred usable] :
    g.Admits reach (fun r => decide (usable r)) usable fun _ => True where
  leaf r _ _ := by simp [reach]
  ok_leaf _ _ _ _ _ := trivial
  split r _ _ _ _ _ _ _ := by simp [reach]
  ok_split _ _ _ _ _ _ _ _ _ _ := trivial

omit [DecidableLT L] in
theorem never_lt_logWeight_iff_pos (h : scale.Separated) {w : W} :
    scale.never < scale.logWeight w ↔ 0 < w := by
  unfold LogScale.logWeight
  split
  · rename_i hw
    exact ⟨fun _ => hw, fun _ => h.never_lt_log w hw⟩
  · rename_i hw
    exact ⟨fun hlt => absurd hlt h.not_never_lt, fun hpos => absurd hpos hw⟩

/-- While sums hold, what is scored is what can be reached by rules above zero. -/
theorem corresponding_reach (h : scale.Separated) (hsums : g.SumsHold scale weights tokens) :
    g.Corresponding tokens (bestScore scale.never) (fun r => scale.logWeight (weights.get r))
      reach (fun r => decide (0 < weights.get r)) fun x _ => scale.never < x.score where
  leaf r _ i := by
    simp only [bestScore, reach, never_lt_logWeight_iff_pos h, decide_eq_true_eq]
    split
    · rename_i hw
      exact .some ((never_lt_logWeight_iff_pos h).2 hw)
    · exact .none
  split {lhs left right first mid last b c x y _ _} hr hb hc hx hy hxnever hynever := by
    simp only [bestScore, reach, never_lt_logWeight_iff_pos h, decide_eq_true_eq]
    by_cases hw : 0 < weights.get (.pair lhs left right)
    · have hlog : scale.logWeight (weights.get (.pair lhs left right)) =
          scale.log (weights.get (.pair lhs left right)) := scale.logWeight_of_pos hw
      obtain ⟨hfirst, hsecond⟩ := hsums hr hw hb hc hx hy
      have hsum := h.never_lt_add (h.never_lt_add hxnever (h.never_lt_log _ hw) hfirst) hynever
        hsecond
      rw [if_pos ⟨hw, hlog ▸ hsum⟩, if_pos hw]
      exact .some (hlog ▸ hsum)
    · rw [if_neg fun hand => hw hand.1, if_neg hw]
      exact .none
  better {a b _ _} ha hb := by
    split
    · exact ha
    · exact hb

/-- A cell is set exactly if its symbol derives its span by rules above zero. -/
theorem contains_bestChart_iff (h : scale.Separated) (hsums : g.SumsHold scale weights tokens)
    {lhs : String} {first last a : Nat} (ha : g.index? lhs = some a) (hfirst : 1 ≤ first)
    (hle : first ≤ last) (hlast : last ≤ tokens.length) :
    (g.bestChart scale weights tokens).contains ⟨first, last, a⟩ = true ↔
      DerivesBy (g.Positive weights) lhs (segment tokens (first - 1) last) := by
  have hrel := (corresponding_reach h hsums).get?_chart ⟨first, last, a⟩
  rw [SpanMap.contains, bestChart, isSome_eq_of_rel hrel, Option.isSome_iff_exists]
  exact (g.admits_reach fun r => 0 < weights.get r).get?_chart_iff ha hfirst hle hlast

theorem contains_bestChart_eq (h : scale.Separated) (hsums : g.SumsHold scale weights tokens)
    (hw : ∀ r ∈ g.rules, 0 < weights.get r) (k : Constituent) :
    (g.bestChart scale weights tokens).contains k = (g.proofChart tokens).contains k := by
  obtain ⟨first, last, a⟩ := k
  by_cases hvalid : Constituent.Valid ⟨first, last, a⟩ tokens.length g.nonterminals.length
  · obtain ⟨hfirst, hle, hlast, ha⟩ := hvalid
    obtain ⟨lhs, ha⟩ := exists_symbol ha
    have hpositive : ∀ r, g.Positive weights r ↔ r ∈ g.rules :=
      fun r => ⟨And.left, fun hr => ⟨hr, hw r hr⟩⟩
    rw [Bool.eq_iff_iff, contains_bestChart_iff h hsums ha hfirst hle hlast,
      contains_proofChart_iff ha hfirst hle hlast, Derives, funext fun r => propext (hpositive r)]
  · rw [SpanMap.contains, SpanMap.contains, bestChart, proofChart, get?_chart_of_not_valid hvalid,
      get?_chart_of_not_valid hvalid]
    rfl

/-- The score of a sentence is `never` exactly if it is not recognised. -/
theorem score_eq_never_iff (h : scale.Separated) (hsums : g.SumsHold scale weights tokens)
    (hw : ∀ r ∈ g.rules, 0 < weights.get r) (start : String) :
    (g.scored scale weights tokens).score scale g start = scale.never ↔
      g.recognizes start tokens = false := by
  unfold ScoredParse.score recognizes
  cases g.index? start with
  | none => simp
  | some a =>
    have hcontains := contains_bestChart_eq h hsums hw ⟨1, tokens.length, a⟩
    rw [SpanMap.contains] at hcontains
    simp only [ScoredParse.cellScore, scored, ← hcontains]
    cases hcell : (g.bestChart scale weights tokens).get? ⟨1, tokens.length, a⟩ with
    | none => simp
    | some x =>
      have hx := never_lt_score_of_get? hcell
      have hne : x.score ≠ scale.never := fun heq => h.not_never_lt (heq ▸ hx)
      simp [hne]

/-- Where all rules weigh one all scores are equal, and the first proof is never replaced. -/
theorem corresponding_firstProof (h : scale.Separated)
    (hw : ∀ r ∈ g.rules, weights.get r = 1) :
    g.Corresponding tokens (bestScore scale.never) (fun r => scale.logWeight (weights.get r))
      firstProof (fun _ => ()) fun x o => x.origin = o ∧ x.score = scale.log 1 where
  leaf r hr i := by
    have hlog : scale.logWeight (weights.get r) = scale.log 1 := by
      rw [hw r hr]
      exact scale.logWeight_of_pos h.zero_lt_one
    simp only [bestScore, firstProof, hlog, if_pos (h.never_lt_log 1 h.zero_lt_one)]
    exact .some ⟨rfl, rfl⟩
  split {lhs left right first mid last b c x y _ _} hr _ _ _ _ hx hy := by
    have hlog : scale.logWeight (weights.get (.pair lhs left right)) = scale.log 1 := by
      rw [hw _ hr]
      exact scale.logWeight_of_pos h.zero_lt_one
    have hnever := h.never_lt_log 1 h.zero_lt_one
    simp only [bestScore, firstProof, hlog, hx.2, hy.2, h.log_one_add, hnever, and_self, if_true]
    exact .some ⟨rfl, rfl⟩
  better {a b _ _} ha hb := by
    simp only [bestScore, firstProof, ha.2, hb.2, h.not_log_one_lt, decide_false]
    exact hb

theorem origin_bestChart_eq (h : scale.Separated) (hw : ∀ r ∈ g.rules, weights.get r = 1)
    (k : Constituent) :
    ((g.bestChart scale weights tokens).get? k).map BestCell.origin =
      (g.proofChart tokens).get? k := by
  exact map_eq_of_rel ((corresponding_firstProof h hw).get?_chart k) And.left

/-- Unless a sum falls back to `never`, a cell holds a score exactly if its symbol derives its span
by rules above zero. If all rules weigh more than zero the charts of best scores and of first
proofs have the same cells, and a sentence scores `never` exactly if it is not recognised. If all
rules weigh one, the two charts hold the same backpointers. -/
theorem bestChart_agrees_with_proofChart (h : scale.Separated) (g : Grammar)
    (weights : RuleWeights W) (tokens : List String) :
    (g.SumsHold scale weights tokens →
      (∀ (lhs : String) (first last a : Nat), g.index? lhs = some a → 1 ≤ first → first ≤ last →
        last ≤ tokens.length →
        ((g.bestChart scale weights tokens).contains ⟨first, last, a⟩ = true ↔
          DerivesBy (g.Positive weights) lhs (segment tokens (first - 1) last))) ∧
      ((∀ r ∈ g.rules, 0 < weights.get r) →
        (∀ k, (g.bestChart scale weights tokens).contains k =
          (g.proofChart tokens).contains k) ∧
        ∀ start, (g.scored scale weights tokens).score scale g start = scale.never ↔
          g.recognizes start tokens = false)) ∧
    ((∀ r ∈ g.rules, weights.get r = 1) →
      ∀ k, ((g.bestChart scale weights tokens).get? k).map BestCell.origin =
        (g.proofChart tokens).get? k) :=
  ⟨fun hsums => ⟨fun _ _ _ _ => contains_bestChart_iff h hsums, fun hw =>
    ⟨contains_bestChart_eq h hsums hw, score_eq_never_iff h hsums hw⟩⟩, origin_bestChart_eq h⟩

omit [LT W] [DecidableLT W] in
/-- In the table of ones every rule weighs one. -/
theorem get_ones (g : Grammar) {r : Rule} (hr : r ∈ g.rules) :
    (RuleWeights.ones g : RuleWeights W).get r = 1 := by
  have hfold : ∀ (rs : List Rule) (t : RuleWeights W), r ∈ rs ∨ t.get? r = some 1 →
      ((rs.map fun q => (q, (1 : W))).foldl (fun t e => t.insert e.1 e.2) t).get? r = some 1 := by
    intro rs
    induction rs with
    | nil => intro t h; simpa using h
    | cons q rs ih =>
      intro t h
      refine ih _ ?_
      rw [RuleWeights.get?_insert]
      by_cases hq : q = r
      · exact .inr (if_pos hq)
      · rw [if_neg hq]
        exact h.imp_left fun hmem => (List.mem_cons.1 hmem).resolve_left (Ne.symm hq)
  rw [RuleWeights.get, RuleWeights.ones, RuleWeights.ofList,
    hfold _ _ (.inl (mem_sortedRules.2 hr)), Option.getD_some]

theorem exactScale_separated : exactScale.Separated where
  not_never_lt := lt_irrefl _
  never_lt_log _ _ := EReal.bot_lt_coe _
  never_lt_add hx hy _ := EReal.bot_lt_add_iff.2 ⟨hx, hy⟩
  zero_lt_one := zero_lt_one
  log_one_add := by simp [exactScale]
  not_log_one_lt := lt_irrefl _

theorem sumsHold_exactScale (g : Grammar) (weights : RuleWeights ℝ) (tokens : List String) :
    g.SumsHold exactScale weights tokens :=
  sumsHold_of_add_ne (fun _ _ => EReal.bot_lt_coe _)
    (fun hx hy => EReal.bot_lt_add_iff.2 ⟨hx, hy⟩) fun hx => ne_of_gt hx

/-- The stray rule of `doubling` weighs less than nothing. -/
noncomputable def strayWeights : RuleWeights ℝ := doublingWeights.insert (.pair "S" "S" "Y") (-1)

theorem bestChart_agrees_with_proofChart_doubling :
    (exactScale.Separated ∧ doubling.SumsHold exactScale strayWeights ["x", "x"] ∧
      doubling.SumsHold exactScale (.ones doubling) ["x", "x"] ∧
      doubling.index? "S" = some 0 ∧
      (∀ r ∈ doubling.rules, 0 < (RuleWeights.ones doubling : RuleWeights ℝ).get r) ∧
      ∀ r ∈ doubling.rules, (RuleWeights.ones doubling : RuleWeights ℝ).get r = 1) ∧
    ((doubling.bestChart exactScale strayWeights ["x", "x"]).contains ⟨1, 2, 0⟩ = true ↔
      DerivesBy (doubling.Positive strayWeights) "S" ["x", "x"]) ∧
    ((doubling.scored exactScale (.ones doubling) ["x", "x"]).score exactScale doubling "S" =
      exactScale.never ↔ doubling.recognizes "S" ["x", "x"] = false) ∧
    ((doubling.bestChart exactScale (.ones doubling) ["x", "x"]).get? ⟨1, 2, 0⟩).map
        BestCell.origin = (doubling.proofChart ["x", "x"]).get? ⟨1, 2, 0⟩ := by
  have hindex : doubling.index? "S" = some 0 := by decide
  have hones : ∀ r ∈ doubling.rules, (RuleWeights.ones doubling : RuleWeights ℝ).get r = 1 :=
    fun _ => get_ones doubling
  have hpos : ∀ r ∈ doubling.rules, 0 < (RuleWeights.ones doubling : RuleWeights ℝ).get r :=
    fun r hr => hones r hr ▸ one_pos
  have hstray := sumsHold_exactScale doubling strayWeights ["x", "x"]
  have hsums := sumsHold_exactScale doubling (.ones doubling) ["x", "x"]
  obtain ⟨hcells, -⟩ := bestChart_agrees_with_proofChart exactScale_separated doubling
    strayWeights ["x", "x"]
  obtain ⟨hunits, horigins⟩ := bestChart_agrees_with_proofChart exactScale_separated doubling
    (.ones doubling) ["x", "x"]
  exact ⟨⟨exactScale_separated, hstray, hsums, hindex, hpos, hones⟩,
    (hcells hstray).1 "S" 1 2 0 hindex (by decide) (by decide) (by decide),
    ((hunits hsums).2 hpos).2 "S", horigins hones _⟩

end Grammar

end TabularParsing
