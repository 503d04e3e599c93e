import Mathlib.Data.Set.Basic
import Mathlib.Order.Bounds.Defs
import TabularParsing.Proofs.ExactScale
import TabularParsing.Proofs.Recognition
import TabularParsing.Proofs.Span.Derivability
import TabularParsing.ScoredParse

/-!
# Best scores are optimal

A cell of the best-score chart keeps one number, yet that number is the greatest score of any
derivation of the span by rules that weigh more than zero: sums are monotone, so a best derivation
has best derivations below it. The backpointer belongs to the first split, and at that split the
first rule, that reaches the greatest score.

## Main definitions

* `LogScale.Regular`: what is asked of scores.
* `Grammar.Candidate`: a pair rule over the best scores of two cells.

## Main statement

* `Grammar.bestChart_optimal`
-/
namespace TabularParsing

variable {W L : Type}

/-! ## The first of the greatest offers -/

section First

variable {α : Type} [LE L] [LT L] [DecidableLT L] {P : L → Prop} {score : α → L}

theorem first_of_foldl_better (hP : TotalOn P) {as : List α} {b c : α} (hb : P (score b))
    (has : ∀ a ∈ as, P (score a))
    (h : as.foldl (better fun x y => decide (score y < score x)) (some b) = some c) :
    ∃ pre post, b :: as = pre ++ c :: post ∧ (∀ a ∈ pre, score a < score c) ∧
      ∀ a ∈ post, score a ≤ score c := by
  induction as generalizing b with
  | nil =>
    obtain rfl : b = c := Option.some.inj h
    exact ⟨[], [], rfl, by simp, by simp⟩
  | cons a as ih =>
    have ha := has a List.mem_cons_self
    have has' := fun x hx => has x (List.mem_cons_of_mem _ hx)
    rw [List.foldl_cons, better] at h
    by_cases hlt : score b < score a
    · rw [if_pos (by simpa using hlt)] at h
      obtain ⟨pre, post, heq, hpre, hpost⟩ := ih ha has' h
      refine ⟨b :: pre, post, by rw [heq]; rfl, ?_, hpost⟩
      intro x hx
      rcases List.mem_cons.1 hx with rfl | hx
      · cases pre with
        | nil => obtain ⟨rfl, -⟩ := List.cons.inj heq; exact hlt
        | cons p pre =>
          obtain ⟨rfl, hrest⟩ := List.cons.inj heq
          have hc : P (score c) := has' c (by rw [hrest]; simp)
          have hac := hpre a List.mem_cons_self
          exact hP.lt_of_lt_of_le hb ha hc hlt (hP.le_of_lt ha hc hac)
      · exact hpre x hx
    · rw [if_neg (by simpa using hlt)] at h
      have hle := hP.le_of_not_lt hb ha hlt
      obtain ⟨pre, post, heq, hpre, hpost⟩ := ih hb has' h
      cases pre with
      | nil =>
        obtain ⟨rfl, rfl⟩ := List.cons.inj heq
        refine ⟨[], a :: as, rfl, by simp, ?_⟩
        intro x hx
        rcases List.mem_cons.1 hx with rfl | hx
        · exact hle
        · exact hpost x hx
      | cons p pre =>
        obtain ⟨rfl, hrest⟩ := List.cons.inj heq
        have hc : P (score c) := has' c (by rw [hrest]; simp)
        refine ⟨b :: a :: pre, post, by rw [hrest]; rfl, ?_, hpost⟩
        have hbc := hpre b List.mem_cons_self
        intro x hx
        rcases List.mem_cons.1 hx with rfl | hx
        · exact hbc
        · rcases List.mem_cons.1 hx with rfl | hx
          · exact hP.lt_of_le_of_lt ha hb hc hle hbc
          · exact hpre x (List.mem_cons_of_mem _ hx)

/-- Of the greatest offers the first is picked. -/
theorem first_of_pick (hP : TotalOn P) {as : List α} {c : α} (has : ∀ a ∈ as, P (score a))
    (h : pick (fun x y => decide (score y < score x)) as = some c) :
    ∃ pre post, as = pre ++ c :: post ∧ (∀ a ∈ pre, score a < score c) ∧
      ∀ a ∈ as, score a ≤ score c := by
  cases as with
  | nil => cases h
  | cons b as =>
    obtain ⟨pre, post, heq, hpre, hpost⟩ := first_of_foldl_better hP (has b List.mem_cons_self)
      (fun a ha => has a (List.mem_cons_of_mem _ ha)) h
    have hc : P (score c) := has c (by rw [heq]; simp)
    refine ⟨pre, post, heq, hpre, fun a ha => ?_⟩
    have hPa := has a ha
    rw [heq] at ha
    rcases List.mem_append.1 ha with ha | ha
    · exact hP.le_of_lt hPa hc (hpre a ha)
    · rcases List.mem_cons.1 ha with rfl | ha
      · exact hP.refl hc
      · exact hpost a ha

end First

namespace Grammar

variable [Zero W] [One W] [LE W] [LT W] [DecidableLT W] [Add L] [LE L] [LT L] [DecidableLT L]
variable {g : Grammar} {scale : LogScale W L} {weights : RuleWeights W} {tokens : List String}

/-- The `n`-th pair rule, if it weighs more than zero, over the best scores of the two cells that
part a span behind the position `mid`: left child, rule, right child, added from the left. -/
inductive Candidate (g : Grammar) (scale : LogScale W L) (weights : RuleWeights W)
    (t : SpanMap (BestCell L)) (first last : Nat) (lhs : String) (mid n : Nat) :
    BestCell L → Prop where
  | mk {left right : String} {b c : Nat} {x y : BestCell L} :
      g.pairRules[n]? = some (.pair lhs left right) →
      0 < weights.get (.pair lhs left right) →
      g.index? left = some b → g.index? right = some c → first ≤ mid → mid < last →
      t.get? ⟨first, mid, b⟩ = some x → t.get? ⟨mid + 1, last, c⟩ = some y →
      Candidate g scale weights t first last lhs mid n
        ⟨x.score + scale.logWeight (weights.get (.pair lhs left right)) + y.score,
          .split ⟨first, mid, b⟩ ⟨mid + 1, last, c⟩⟩

/-- A rule counts if it weighs more than zero. -/
def Positive (g : Grammar) (weights : RuleWeights W) (r : Rule) : Prop :=
  r ∈ g.rules ∧ 0 < weights.get r

omit [DecidableLT L] in
theorem never_lt_logWeight_iff (hscale : scale.Regular) {w : W} (hw : w ≤ 1) :
    scale.never < scale.logWeight w ↔ 0 < w := by
  unfold LogScale.logWeight
  split
  · rename_i h
    exact ⟨fun _ => h, fun h => hscale.never_lt_log w h hw⟩
  · rename_i h
    exact ⟨fun h' => absurd h' hscale.not_never_lt, fun h' => absurd h' h⟩

omit [LE L] in
/-- What scores `never` is not kept. -/
theorem never_lt_of_leaf {x never : L} {position : Nat} {cell : BestCell L}
    (h : (bestScore never).leaf x position = some cell) : never < cell.score := by
  simp only [bestScore] at h
  split at h
  · obtain rfl := Option.some.inj h
    assumption
  · cases h

omit [LE L] in
theorem never_lt_of_split {x never : L} {k l : Constituent} {left right cell : BestCell L}
    (h : (bestScore never).split x k left l right = some cell) : never < cell.score := by
  simp only [bestScore] at h
  split at h
  · rename_i hnever
    obtain rfl := Option.some.inj h
    exact hnever.2
  · cases h

theorem admits_bestScore (hscale : scale.Regular) (hw : ∀ r ∈ g.rules, weights.get r ≤ 1) :
    g.Admits (bestScore scale.never) (fun r => scale.logWeight (weights.get r))
      (fun r => 0 < weights.get r) fun c => scale.never < c.score where
  leaf r hr i := by
    rw [← never_lt_logWeight_iff hscale (hw r hr)]
    simp [bestScore]
  ok_leaf _ _ _ _ hx := never_lt_of_leaf hx
  split r hr k x l y hx hy := by
    rw [← never_lt_logWeight_iff hscale (hw r hr)]
    simp only [bestScore, Option.ite_none_right_eq_some, exists_and_left]
    refine ⟨fun h => h.1.1, fun h => ⟨⟨h, ?_⟩, _, rfl⟩⟩
    exact hscale.never_lt_add (hscale.never_lt_add hx h) hy
  ok_split _ _ _ _ _ _ _ _ _ hz := never_lt_of_split hz

/-! ## Candidates -/

theorem offersAt_iff_candidate (hscale : scale.Regular) (hw : ∀ r ∈ g.rules, weights.get r ≤ 1)
    {lhs : String} {first last mid n : Nat} {z : BestCell L} :
    g.OffersAt (bestScore scale.never) (fun r => scale.logWeight (weights.get r))
        (g.bestChart scale weights tokens).get? first last lhs mid n z ↔
      g.Candidate scale weights (g.bestChart scale weights tokens) first last lhs mid n z := by
  have hadmits := admits_bestScore hscale hw
  constructor
  · rintro ⟨hr, hb, hc, hmid, hmid', hx, hy, hz⟩
    simp only [bestScore] at hz
    split at hz
    · rename_i h
      obtain rfl := Option.some.inj hz
      have hpos := (never_lt_logWeight_iff hscale (hw _ (mem_rules_of_getElem? hr))).1 h.1
      exact .mk hr hpos hb hc hmid hmid' hx hy
    · cases hz
  · rintro ⟨hr, hpos, hb, hc, hmid, hmid', hx, hy⟩
    have hrule := (never_lt_logWeight_iff hscale (hw _ (mem_rules_of_getElem? hr))).2 hpos
    have hsum := hscale.never_lt_add
      (hscale.never_lt_add (hadmits.ok_of_get?_chart hx) hrule) (hadmits.ok_of_get?_chart hy)
    exact .mk hr hb hc hmid hmid' hx hy (by simp [bestScore, hrule, hsum])

/-- What a cell of two words and more holds is the first of its greatest candidates. -/
theorem first_candidate (hscale : scale.Regular) (hw : ∀ r ∈ g.rules, weights.get r ≤ 1)
    {lhs : String} {first last a : Nat} {cell : BestCell L} (ha : g.index? lhs = some a)
    (hlt : first < last)
    (hcell : (g.bestChart scale weights tokens).get? ⟨first, last, a⟩ = some cell) :
    (∃ mid n,
      g.Candidate scale weights (g.bestChart scale weights tokens) first last lhs mid n cell ∧
      ∀ mid' n' c,
        g.Candidate scale weights (g.bestChart scale weights tokens) first last lhs mid' n' c →
        mid' < mid ∨ mid' = mid ∧ n' < n → c.score < cell.score) ∧
    ∀ mid n c,
      g.Candidate scale weights (g.bestChart scale weights tokens) first last lhs mid n c →
      c.score ≤ cell.score := by
  have hadmits := admits_bestScore hscale hw
  obtain ⟨hfirst, -, hlast, -⟩ := Admits.valid_of_get?_chart hcell
  have hpick := hcell
  rw [bestChart, g.get?_chart_split hfirst hlt hlast (index?_lt ha)] at hpick
  have hoffers : ∀ c ∈ splitOffers (bestScore scale.never)
      (g.splitRules fun r => scale.logWeight (weights.get r))
      (g.bestChart scale weights tokens).get? first last a, scale.never < c.score := by
    intro c hc
    obtain ⟨mid, n, -, -, -, -, -, -, -, hz⟩ := (mem_splitOffers ha).1 hc
    exact never_lt_of_split hz
  obtain ⟨pre, post, hsplit, hpre, hall⟩ := first_of_pick hscale.total hoffers hpick
  obtain ⟨mid, n, hoffer, hearlier⟩ := offersAt_of_splitOffers_eq ha hsplit
  simp only [offersAt_iff_candidate hscale hw] at hoffer hearlier
  refine ⟨⟨mid, n, hoffer, fun mid' n' c hc h => hpre c (hearlier mid' n' c hc h)⟩, ?_⟩
  intro mid n c hc
  exact hall c ((mem_splitOffers ha).2 ⟨mid, n, (offersAt_iff_candidate hscale hw).2 hc⟩)

/-! ## Optimality -/

/-- The scores of derivations by rules that weigh more than zero. -/
def PositiveScores (g : Grammar) (scale : LogScale W L) (weights : RuleWeights W) (lhs : String)
    (ws : List String) : Set L :=
  {x | Scores (g.Positive weights) (fun r => scale.logWeight (weights.get r)) lhs ws x}

omit [DecidableLT L] in
theorem never_lt_of_mem_positiveScores (hscale : scale.Regular)
    (hw : ∀ r ∈ g.rules, weights.get r ≤ 1) {lhs : String} {ws : List String} {x : L}
    (h : x ∈ g.PositiveScores scale weights lhs ws) : scale.never < x := by
  induction h with
  | word hr => exact (never_lt_logWeight_iff hscale (hw _ hr.1)).2 hr.2
  | pair hr _ _ hleft hright =>
    have hrule := (never_lt_logWeight_iff hscale (hw _ hr.1)).2 hr.2
    exact hscale.never_lt_add (hscale.never_lt_add hleft hrule) hright

omit [LE L] in
theorem eq_of_leaf {x never : L} {position : Nat} {cell : BestCell L}
    (h : (bestScore never).leaf x position = some cell) : cell = ⟨x, .leaf position⟩ := by
  simp only [bestScore] at h
  split at h
  · exact (Option.some.inj h).symm
  · cases h

omit [LE L] [LT L] [DecidableLT L] in
/-- A single word is derived by its rule alone. -/
theorem eq_of_scores_singleton {usable : Rule → Prop} {ruleScore : Rule → L} {lhs w : String}
    {x : L} (h : Scores usable ruleScore lhs [w] x) : x = ruleScore (.word lhs w) := by
  generalize hws : [w] = ws at h
  cases h with
  | word _ =>
    obtain ⟨rfl, -⟩ := List.cons.inj hws
    rfl
  | pair _ hleft hright =>
    have hleft := ((derivesBy_iff_scores _).2 ⟨_, hleft⟩).ne_nil
    have hright := ((derivesBy_iff_scores _).2 ⟨_, hright⟩).ne_nil
    rcases List.append_eq_singleton_iff.1 hws.symm with ⟨h, -⟩ | ⟨-, h⟩
    · exact absurd h hleft
    · exact absurd h hright

theorem isGreatest_score_word (hscale : scale.Regular) (hw : ∀ r ∈ g.rules, weights.get r ≤ 1)
    {lhs w : String} {position : Nat} {cell : BestCell L} (hr : .word lhs w ∈ g.rules)
    (hcell : (bestScore scale.never).leaf (scale.logWeight (weights.get (.word lhs w))) position =
      some cell) : IsGreatest (g.PositiveScores scale weights lhs [w]) cell.score := by
  have hpos := ((admits_bestScore hscale hw).leaf _ hr position).1 ⟨cell, hcell⟩
  obtain rfl := eq_of_leaf hcell
  have hmem : scale.logWeight (weights.get (.word lhs w)) ∈
      g.PositiveScores scale weights lhs [w] := Scores.word ⟨hr, hpos⟩
  refine ⟨hmem, fun x hx => ?_⟩
  obtain rfl := eq_of_scores_singleton hx
  exact hscale.total.refl (never_lt_of_mem_positiveScores hscale hw hmem)

/-- A derivation by a pair rule scores no more than the candidate over the best scores of its
parts. -/
theorem exists_candidate_ge (hscale : scale.Regular) (hw : ∀ r ∈ g.rules, weights.get r ≤ 1)
    {lhs left right : String} {us vs : List String} {first last : Nat} {x y : L}
    (hfirst : 1 ≤ first) (hlast : last ≤ tokens.length)
    (hws : segment tokens (first - 1) last = us ++ vs)
    (hr : g.Positive weights (.pair lhs left right))
    (hx : x ∈ g.PositiveScores scale weights left us)
    (hy : y ∈ g.PositiveScores scale weights right vs)
    (hshorter : ∀ {lhs : String} {first' last' a : Nat} {cell : BestCell L},
      last' - first' < last - first → g.index? lhs = some a →
      (g.bestChart scale weights tokens).get? ⟨first', last', a⟩ = some cell →
      ∀ z ∈ g.PositiveScores scale weights lhs (segment tokens (first' - 1) last'),
        z ≤ cell.score) :
    ∃ mid n c,
      g.Candidate scale weights (g.bestChart scale weights tokens) first last lhs mid n c ∧
      scale.never < c.score ∧
      x + scale.logWeight (weights.get (.pair lhs left right)) + y ≤ c.score := by
  have hadmits := admits_bestScore hscale hw
  have hus := (derivesBy_iff_scores _).2 ⟨x, hx⟩
  have hvs := (derivesBy_iff_scores _).2 ⟨y, hy⟩
  obtain ⟨mid, b, c, hmid, hmid', hb, hc, rfl, rfl⟩ :=
    exists_parting hfirst hlast (fun _ h => h.1) hus hvs hws.symm
  obtain ⟨x', hx'⟩ := (hadmits.get?_chart_iff hb hfirst hmid (by omega)).2 hus
  obtain ⟨y', hy'⟩ := (hadmits.get?_chart_iff hc (by omega) hmid' hlast).2 hvs
  obtain ⟨n, hn⟩ := List.mem_iff_getElem?.1 (pair_mem_pairRules.2 hr.1)
  have hleft : x ≤ x'.score := hshorter (by omega) hb hx' x hx
  have hright : y ≤ y'.score := hshorter (by omega) hc hy' y hy
  have hrule := (never_lt_logWeight_iff hscale (hw _ hr.1)).2 hr.2
  have hokx := hadmits.ok_of_get?_chart hx'
  have hoky := hadmits.ok_of_get?_chart hy'
  refine ⟨mid, n, _, .mk hn hr.2 hb hc hmid hmid' hx' hy',
    hscale.never_lt_add (hscale.never_lt_add hokx hrule) hoky, ?_⟩
  exact hscale.add_add_le_add_add (never_lt_of_mem_positiveScores hscale hw hx) hokx hrule
    (never_lt_of_mem_positiveScores hscale hw hy) hoky hleft hright

theorem isGreatest_score (hscale : scale.Regular) (hw : ∀ r ∈ g.rules, weights.get r ≤ 1)
    {lhs : String} {first last a : Nat} {cell : BestCell L} (ha : g.index? lhs = some a)
    (hcell : (g.bestChart scale weights tokens).get? ⟨first, last, a⟩ = some cell) :
    IsGreatest (g.PositiveScores scale weights lhs (segment tokens (first - 1) last))
      cell.score := by
  have hadmits := admits_bestScore hscale hw
  induction hn : last - first using Nat.strongRecOn generalizing lhs first last a cell with
  | ind m ih =>
    obtain ⟨hfirst, hle, hlast, -⟩ := Admits.valid_of_get?_chart hcell
    simp only at hfirst hle hlast
    rcases Admits.offered_of_get?_chart ha hcell with ⟨w, rfl, hword, hr, hx⟩ | ⟨hlt, -⟩
    · have hseg := segment_succ hword
      rw [Nat.sub_add_cancel hfirst] at hseg
      rw [hseg]
      exact isGreatest_score_word hscale hw hr hx
    · obtain ⟨⟨mid, n, hcand, -⟩, hall⟩ := first_candidate hscale hw ha hlt hcell
      constructor
      · cases hcand with
        | mk hr hpos hb hc hmid hmid' hx hy =>
          rw [← segment_append tokens (show first - 1 ≤ mid by omega) (by omega)]
          exact .pair ⟨mem_rules_of_getElem? hr, hpos⟩ (ih _ (by omega) hb hx rfl).1
            (ih (last - (mid + 1)) (by omega) hc hy rfl).1
      · intro x hx
        generalize hws : segment tokens (first - 1) last = ws at hx
        cases hx with
        | word hr =>
          obtain ⟨rfl, -⟩ := getElem?_of_segment_eq hlast hws
          omega
        | @pair _ left right us vs x y hr hx hy =>
          obtain ⟨mid, n, c, hcand', hok, hle⟩ := exists_candidate_ge hscale hw hfirst hlast hws hr
            hx hy fun hshort hb hcell => (ih _ (by omega) hb hcell rfl).2
          have hsum := never_lt_of_mem_positiveScores hscale hw (.pair hr hx hy)
          exact hscale.total.trans hsum hok (hadmits.ok_of_get?_chart hcell) hle
            (hall mid n c hcand')

/-- A cell is free exactly if its symbol has no derivation of its span by rules that weigh more
than zero. Else it holds the greatest score of such a derivation; over a single word its
backpointer leads to the word, over more words to the first pair of split and rule that reaches the
greatest score. -/
theorem bestChart_optimal (tokens : List String) (hscale : scale.Regular)
    (hw : ∀ r ∈ g.rules, weights.get r ≤ 1) {lhs : String} {first last a : Nat}
    (ha : g.index? lhs = some a) (hfirst : 1 ≤ first) (hle : first ≤ last)
    (hlast : last ≤ tokens.length) :
    ((g.bestChart scale weights tokens).get? ⟨first, last, a⟩ = none ↔
      g.PositiveScores scale weights lhs (segment tokens (first - 1) last) = ∅) ∧
    ∀ cell, (g.bestChart scale weights tokens).get? ⟨first, last, a⟩ = some cell →
      IsGreatest (g.PositiveScores scale weights lhs (segment tokens (first - 1) last))
        cell.score ∧
      (first = last → cell.origin = .leaf first) ∧
      (first < last → ∃ mid n,
        g.Candidate scale weights (g.bestChart scale weights tokens) first last lhs mid n cell ∧
        ∀ mid' n' c,
          g.Candidate scale weights (g.bestChart scale weights tokens) first last lhs mid' n' c →
          mid' < mid ∨ mid' = mid ∧ n' < n → c.score < cell.score) := by
  have hadmits := admits_bestScore hscale hw
  constructor
  · rw [Option.eq_none_iff_forall_ne_some, ← not_exists, bestChart,
      hadmits.get?_chart_iff ha hfirst hle hlast,
      derivesBy_iff_scores fun r => scale.logWeight (weights.get r),
      Set.eq_empty_iff_forall_notMem, not_exists]
    rfl
  · intro cell hcell
    refine ⟨isGreatest_score hscale hw ha hcell, ?_, fun hlt =>
      (first_candidate hscale hw ha hlt hcell).1⟩
    rintro rfl
    rcases Admits.offered_of_get?_chart ha hcell with ⟨w, -, -, -, hx⟩ | ⟨hlt, -⟩
    · rw [eq_of_leaf hx]
    · omega

/-- The rules of `doubling` weigh a half, a quarter and nothing. -/
noncomputable def doublingWeights : RuleWeights ℝ :=
  (RuleWeights.empty.insert (.pair "S" "S" "S") (1 / 2)).insert (.word "S" "x") (1 / 4)

theorem get_doublingWeights : doublingWeights.get (.pair "S" "S" "S") = 1 / 2 ∧
    doublingWeights.get (.word "S" "x") = 1 / 4 ∧
    doublingWeights.get (.pair "S" "S" "Y") = 0 := by
  refine ⟨?_, ?_, ?_⟩ <;> simp [doublingWeights, RuleWeights.get, Rule.word, Rule.pair]

theorem doublingWeights_mem_unit :
    ∀ r ∈ doubling.rules, 0 ≤ doublingWeights.get r ∧ doublingWeights.get r ≤ 1 := by
  obtain ⟨hpair, hword, hstray⟩ := get_doublingWeights
  intro r hr
  simp only [doubling, mem_rules_make, List.mem_cons, List.not_mem_nil, or_false] at hr
  rcases hr with rfl | rfl | rfl
  · rw [hpair]; norm_num
  · rw [hword]; norm_num
  · rw [hstray]; norm_num

theorem bestChart_optimal_doubling :
    (exactScale.Regular ∧ (∀ r ∈ doubling.rules, doublingWeights.get r ≤ 1) ∧
      doubling.index? "S" = some 0) ∧
    ∃ cell, (doubling.bestChart exactScale doublingWeights ["x", "x", "x"]).get? ⟨1, 3, 0⟩ =
        some cell ∧
      IsGreatest (doubling.PositiveScores exactScale doublingWeights "S" ["x", "x", "x"])
        cell.score ∧
      ∃ mid n, doubling.Candidate exactScale doublingWeights
        (doubling.bestChart exactScale doublingWeights ["x", "x", "x"]) 1 3 "S" mid n cell := by
  obtain ⟨hpair, hword, -⟩ := get_doublingWeights
  have hw : ∀ r ∈ doubling.rules, doublingWeights.get r ≤ 1 :=
    fun r hr => (doublingWeights_mem_unit r hr).2
  have hindex : doubling.index? "S" = some 0 := by decide
  obtain ⟨hfree, hbest⟩ := bestChart_optimal ["x", "x", "x"] exactScale_regular hw hindex
    (show 1 ≤ 1 by decide) (show 1 ≤ 3 by decide) (by decide)
  have hx : doubling.Positive doublingWeights (.word "S" "x") :=
    ⟨by decide, by rw [hword]; norm_num⟩
  have hpairs : doubling.Positive doublingWeights (.pair "S" "S" "S") :=
    ⟨by decide, by rw [hpair]; norm_num⟩
  have hscores : ∃ x, x ∈ doubling.PositiveScores exactScale doublingWeights "S" ["x", "x", "x"] :=
    ⟨_, Scores.pair hpairs (Scores.pair hpairs (.word hx) (.word hx)) (.word hx)⟩
  cases hcell : (doubling.bestChart exactScale doublingWeights ["x", "x", "x"]).get? ⟨1, 3, 0⟩ with
  | none => exact absurd (hfree.1 hcell) (Set.Nonempty.ne_empty hscores)
  | some cell =>
    obtain ⟨hgreatest, -, hfirst⟩ := hbest cell hcell
    obtain ⟨mid, n, hcand, -⟩ := hfirst (by decide)
    exact ⟨⟨exactScale_regular, hw, hindex⟩, cell, rfl, hgreatest, mid, n, hcand⟩

end Grammar

end TabularParsing
