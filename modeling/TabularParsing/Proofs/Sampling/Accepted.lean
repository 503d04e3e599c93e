import TabularParsing.Proofs.Recognition
import TabularParsing.Proofs.Sampling.Draws
import TabularParsing.Proofs.Sampling.Expansion
import TabularParsing.Proofs.Text.Words

/-!
# Random sentences are accepted

Whatever is drawn, a random sentence of a grammar that is read from text is split into the words
that were expanded, its symbol derives them, and by rules that weigh more than zero. So it is
recognised and scores more than what cannot happen. For the latter, sums of logarithms must not
reach minus infinity: the least positive double has a logarithm of about `-744.4`, each sum at most
doubles what lies below zero, and expansions nest too little for that to pass the least double.

## Main definitions

* `Double.AboveFloor`: how far sums of doubles sink.

## Main statements

* `Double.deep_double`
* `Grammar.randomSentence_accepted`
-/
namespace TabularParsing

/-! ## How far sums sink -/

namespace Double

open Float.Model Float.Model.UnpackedFloat

/-- `1024 * 2 ^ n` in units of the least positive double. -/
def depth (n : Nat) : Nat := size (2 ^ 52) (n - 42)

theorem depth_succ (n : Nat) : depth (n + 1) = 2 * depth n := by
  have hexponent : ((n + 1 : Nat) - 42 + 1074 : Int).toNat = ((n : Int) - 42 + 1074).toNat + 1 := by
    omega
  rw [depth, depth, size, size, hexponent, Nat.mul_left_comm]
  exact congrArg (2 ^ 52 * ·) Nat.pow_succ'

theorem depth_mono {m n : Nat} (h : m ≤ n) : depth m ≤ depth n := by
  induction n, h using Nat.le_induction with
  | base => exact le_rfl
  | succ n _ ih =>
    rw [depth_succ]
    omega

theorem fits_depth (n : Nat) : Fits (2 ^ 52) (n - 42) := ⟨by decide, by omega, .inl le_rfl⟩

theorem depth_lt_limit {n : Nat} (h : n ≤ 1000) : depth n < limit :=
  size_lt_limit (fits_depth n) (by omega)

/-- Doubling takes no rounding. -/
theorem settle_neg_depth {n : Nat} (h : n ≤ 1000) :
    settle (-(depth n : Int)) = -(depth n : Int) := by
  have hround : nearestSize (depth n) = depth n := nearestSize_size (fits_depth n) (by decide)
  have hsettle := settle_apply .negative (depth n)
  rwa [hround, min_eq_right (depth_lt_limit h).le] at hsettle

/-- The double is a number from `-1024 * 2 ^ n` on. -/
def AboveFloor (n : Nat) (x : Float) : Prop := IsNumber x ∧ -(depth n : Int) ≤ level x

theorem unpack_floor : (-1024 : Float).toModel.unpack =
    .finite .negative (2 ^ 52) (-42) (by decide) := by rfl

theorem aboveFloor_zero {x : Float} (h : -1024 ≤ x) : AboveFloor 0 x := by
  obtain ⟨hfloor, hx⟩ := isNumber_of_le h
  have hlevel : level (-1024) = -(depth 0 : Int) := by
    rw [level, unpack_floor]
    rfl
  exact ⟨hx, hlevel ▸ (le_iff_level hfloor hx).1 h⟩

namespace AboveFloor

variable {m n : Nat} {x y : Float}

theorem never_lt (hn : n ≤ 1000) (h : AboveFloor n x) : never < x := by
  have hlt := depth_lt_limit hn
  obtain ⟨hx, hlevel⟩ := h
  exact never_lt_iff.2 ⟨hx, by omega⟩

theorem sink (hmn : m ≤ n) (h : AboveFloor m x) : AboveFloor n x := by
  have hle := depth_mono hmn
  obtain ⟨hx, hlevel⟩ := h
  exact ⟨hx, by omega⟩

theorem rise (h : AboveFloor n x) (hxy : x ≤ y) : AboveFloor n y := by
  obtain ⟨hx, hy⟩ := isNumber_of_le hxy
  exact ⟨hy, h.2.trans ((le_iff_level hx hy).1 hxy)⟩

/-- A sum sinks at most twice as deep as what is added up. -/
theorem add (hn : n < 1000) (hx : AboveFloor n x) (hy : AboveFloor n y) :
    AboveFloor (n + 1) (x + y) := by
  have hxnever := hx.never_lt hn.le
  have hynever := hy.never_lt hn.le
  have hxlimit := level_le_limit hxnever
  have hylimit := level_le_limit hynever
  refine ⟨isNumber_add hxnever hynever, ?_⟩
  -- an infinite summand makes the sum infinite, else the sum is rounded from the exact one
  by_cases h : level x = limit ∨ level y = limit
  · rw [(level_add_of_eq_limit hxnever hynever h).2]
    omega
  · have hsum : -(depth (n + 1) : Int) ≤ level x + level y := by
      have hdouble := depth_succ n
      have hxlevel := hx.2
      have hylevel := hy.2
      omega
    have hround := settle_mono hsum
    rwa [settle_neg_depth hn, ← (level_add hxnever hynever (by omega) (by omega)).2] at hround

end AboveFloor

/-- Sums of logarithms of doubles do not reach minus infinity before they are nested a thousand
deep. -/
theorem deep_double {scale : LogScale Float Float} (hnever : scale.never = never) :
    scale.Deep AboveFloor 1000 where
  total := hnever ▸ totalOn_never_lt
  never_lt hn h := hnever ▸ h.never_lt hn
  sink := AboveFloor.sink
  rise := AboveFloor.rise
  add := AboveFloor.add

end Double

/-! ## Random sentences -/

namespace Grammar

section

variable {W G : Type} [Zero W] [Add W] [LE W] [DecidableLE W] {draw : Drawing G W}
  {g : Grammar} {weights : RuleWeights W} {symbol sentence : String} {source source' : G}

theorem exists_expand_of_randomSentence
    (h : g.randomSentence draw weights symbol source = (.ok sentence, source')) :
    ∃ ws, g.expand draw weights (maxDepth + 1) symbol source = (.ok ws, source') ∧
      sentence = " ".intercalate ws := by
  unfold randomSentence at h
  split at h
  · rename_i ws source₁ hexpand
    obtain ⟨hsentence, rfl⟩ := Prod.mk.inj h
    exact ⟨ws, hexpand, (Except.ok.inj hsentence).symm⟩
  · cases h

/-- A random sentence splits into the words it was made of. -/
theorem expand_eq_words [LT W] (hs : NonnegSums W) (hdraw : draw.Below) {text : String}
    (hg : ofText text = .ok g) (hweights : ∀ r ∈ g.rules, 0 ≤ weights.get r)
    (h : g.randomSentence draw weights symbol source = (.ok sentence, source')) :
    g.expand draw weights (maxDepth + 1) symbol source = (.ok (Text.words sentence), source') := by
  obtain ⟨ws, hexpand, rfl⟩ := exists_expand_of_randomSentence h
  have hderives := (derivesWithin_of_expand hs hdraw hweights hexpand).derivesBy
  rwa [Text.words_intercalate (hderives.forall_word fun hr => isWord_of_ofText hg hr.1)]

end

/-- The words of a derivation by rules above zero that nests no deeper than expansions do score
more than `never`. -/
theorem never_lt_score {g : Grammar} {weights : RuleWeights Float} {scale : LogScale Float Float}
    (hnever : scale.never = Double.never)
    (hlog : ∀ r, g.Positive weights r → -1024 ≤ scale.log (weights.get r)) {symbol : String}
    {tokens : List String}
    (hderives : DerivesWithin (g.Positive weights) (maxDepth + 1) symbol tokens) :
    scale.never < (g.scored scale weights tokens).score scale g symbol := by
  have hgrammar : g.Derives symbol tokens := hderives.derivesBy.mono fun _ hr => hr.1
  obtain ⟨a, ha⟩ := exists_index? hgrammar.mem_nonterminals
  have hfull : segment tokens (1 - 1) tokens.length = tokens := segment_full tokens
  have hdeep := Double.deep_double hnever
  obtain ⟨x, hx, habove⟩ := exists_cell_of_derivesWithin hdeep
    (fun r hr => Double.aboveFloor_zero (hlog r hr)) ha le_rfl le_rfl (by decide)
    (hfull.symm ▸ hderives)
  have hscore : (g.scored scale weights tokens).score scale g symbol = x.score := by
    simp only [ScoredParse.score, ScoredParse.cellScore, ha, scored, hx]
  rw [hscore]
  exact hdeep.never_lt (by decide) habove

/-- What a grammar read from text says at random is accepted, whatever is drawn: the sentence is
recognised, its score is above minus infinity, and splitting it gives back the words that were
expanded. -/
theorem randomSentence_accepted {G : Type} {draw : Drawing G Float} {text : String} {g : Grammar}
    {weights : RuleWeights Float} {scale : LogScale Float Float} {symbol sentence : String}
    {source source' : G} (hdraw : draw.Below) (hg : ofText text = .ok g)
    (hweights : ∀ r w, weights.get? r = some w → 0 ≤ w ∧ w.isFinite = true)
    (hnever : scale.never = Double.never)
    (hlog : ∀ w : Float, 0 < w → w.isFinite = true → -1024 ≤ scale.log w)
    (h : g.randomSentence draw weights symbol source = (.ok sentence, source')) :
    g.recognizesSentence sentence symbol = true ∧
      (g.scored scale weights (Text.words sentence)).derivable scale g symbol = true ∧
      scale.never < (g.scored scale weights (Text.words sentence)).score scale g symbol ∧
      g.expand draw weights (maxDepth + 1) symbol source =
        (.ok (Text.words sentence), source') := by
  have hnonneg (r : Rule) : 0 ≤ weights.get r := by
    rw [RuleWeights.get]
    cases hw : weights.get? r with
    | none => exact Double.nonnegSums_double.zero_le_zero
    | some w => exact (hweights r w hw).1
  have hrule (r : Rule) (hr : g.Positive weights r) : -1024 ≤ scale.log (weights.get r) := by
    obtain ⟨-, hpos⟩ := hr
    rw [RuleWeights.get] at hpos ⊢
    cases hw : weights.get? r with
    | none =>
      rw [hw] at hpos
      exact absurd hpos (by decide)
    | some w =>
      rw [hw] at hpos
      exact hlog w hpos (hweights r w hw).2
  have hexpand := expand_eq_words Double.nonnegSums_double hdraw hg (fun r _ => hnonneg r) h
  have hderives := derivesWithin_of_expand Double.nonnegSums_double hdraw (fun r _ => hnonneg r)
    hexpand
  have hscore := never_lt_score hnever hrule hderives
  refine ⟨?_, ?_, hscore, hexpand⟩
  · rw [recognizesSentence, recognizes_iff]
    exact hderives.derivesBy.mono fun _ hr => hr.1
  · rw [ScoredParse.derivable, hnever]
    rw [hnever] at hscore
    exact Double.bne_never_of_lt hscore

/-- Two words, the first of which has an alternative that weighs nothing. -/
def sparse : Grammar :=
  .make [.pair "S" "A" "B", .word "A" "x", .word "A" "z", .word "B" "y"] (by simp)

def sparseWeights : RuleWeights Float :=
  (((RuleWeights.empty.insert (.pair "S" "A" "B") 1).insert (.word "A" "x") 0).insert
    (.word "A" "z") 1).insert (.word "B" "y") 1

theorem sparseWeights_finite (r : Rule) (w : Float) (h : sparseWeights.get? r = some w) :
    0 ≤ w ∧ w.isFinite = true := by
  simp only [sparseWeights, RuleWeights.get?_insert, RuleWeights.get?_empty] at h
  split_ifs at h <;> obtain rfl := Option.some.inj h <;> decide

/-- The logarithm of one. -/
def oneScale : LogScale Float Float := ⟨Double.never, fun _ => 0, fun _ => 1⟩

theorem randomSentence_accepted_sparse :
    ofText "S -> A B\nA -> x\nA -> z\nB -> y\n" = .ok sparse ∧
    sparse.randomSentence WordSource.drawFloat sparseWeights "S" ⟨.listed [], 0⟩ =
      (.ok "z y", ⟨.listed [], 3⟩) ∧
    sparse.recognizesSentence "z y" "S" = true ∧
    oneScale.never <
      (sparse.scored oneScale sparseWeights ["z", "y"]).score oneScale sparse "S" ∧
    sparse.expand WordSource.drawFloat sparseWeights (maxDepth + 1) "S" ⟨.listed [], 0⟩ =
      (.ok ["z", "y"], ⟨.listed [], 3⟩) := by
  have hread : ofText "S -> A B\nA -> x\nA -> z\nB -> y\n" = .ok sparse := by rfl
  have hsentence : sparse.randomSentence WordSource.drawFloat sparseWeights "S" ⟨.listed [], 0⟩ =
      (.ok "z y", ⟨.listed [], 3⟩) := by rfl
  have hwords : Text.words "z y" = ["z", "y"] := by rfl
  have hlog (w : Float) (_ : 0 < w) (_ : w.isFinite = true) : -1024 ≤ oneScale.log w := by
    show (-1024 : Float) ≤ 0
    decide
  obtain ⟨hrecognized, -, hscore, hexpand⟩ := randomSentence_accepted
    WordSource.below_drawFloat hread sparseWeights_finite rfl hlog hsentence
  rw [hwords] at hscore hexpand
  exact ⟨hread, hsentence, hrecognized, hscore, hexpand⟩

end Grammar

end TabularParsing
