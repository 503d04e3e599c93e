import TabularParsing.Proofs.BestScore
import TabularParsing.Proofs.Sampling.Picks

/-!
# What expansions derive

The words of an expansion are derived by rules that weigh more than zero, nested no deeper than the
expansions were allowed to nest. So a scored chart, whose best scores can only be higher, has a
cell for them, unless that many sums run out of scores.

## Main definitions

* `Grammar.DerivesWithin`: derivations of bounded nesting.
* `LogScale.Deep`: what is asked of scores of such derivations.

## Main statements

* `Grammar.derivesWithin_of_expand`
* `Grammar.exists_cell_of_derivesWithin`
-/
namespace TabularParsing

namespace Grammar

/-- A symbol derives words by rules that are `usable`, nested at most so deep. -/
inductive DerivesWithin (usable : Rule → Prop) : Nat → String → List String → Prop where
  | word {n : Nat} {lhs w : String} : usable (.word lhs w) → DerivesWithin usable (n + 1) lhs [w]
  | pair {n : Nat} {lhs left right : String} {us vs : List String} :
      usable (.pair lhs left right) → DerivesWithin usable n left us →
      DerivesWithin usable n right vs → DerivesWithin usable (n + 1) lhs (us ++ vs)

theorem DerivesWithin.derivesBy {usable : Rule → Prop} {n : Nat} {symbol : String}
    {ws : List String} (h : DerivesWithin usable n symbol ws) : DerivesBy usable symbol ws := by
  induction h with
  | word hr => exact .word hr
  | pair hr _ _ hleft hright => exact .pair hr hleft hright

section Expand

variable {W G : Type} [Zero W] [Add W] [LE W] [LT W] [DecidableLE W] {draw : Drawing G W}
  {g : Grammar} {weights : RuleWeights W}

/-- An expansion is a derivation by rules that weigh more than zero. -/
theorem derivesWithin_of_expand (hs : NonnegSums W) (hdraw : draw.Below)
    (hweights : ∀ r ∈ g.rules, 0 ≤ weights.get r) {n : Nat} {symbol : String} {source source' : G}
    {ws : List String} (h : g.expand draw weights n symbol source = (.ok ws, source')) :
    DerivesWithin (g.Positive weights) n symbol ws := by
  induction n generalizing symbol source source' ws with
  | zero => cases h
  | succ n ih =>
    rw [expand] at h
    split at h
    · cases h
    · rename_i r source₁ hpick
      obtain ⟨hmem, hpos⟩ := pos_of_pickRule hs hdraw
        (fun q hq => hweights q (mem_alternatives.1 hq).1) hpick
      obtain ⟨hr, rfl⟩ := mem_alternatives.1 hmem
      obtain ⟨lhs, rhs⟩ := r
      cases rhs with
      | word w =>
        obtain ⟨hws, -⟩ := Prod.mk.inj h
        obtain rfl := Except.ok.inj hws
        exact .word ⟨hr, hpos⟩
      | pair left right =>
        simp only at h
        split at h
        · cases h
        · rename_i us source₂ hleft
          split at h
          · cases h
          · rename_i vs source₃ hright
            obtain ⟨hws, -⟩ := Prod.mk.inj h
            obtain rfl := Except.ok.inj hws
            exact .pair ⟨hr, hpos⟩ (ih hleft) (ih hright)

end Expand

end Grammar

/-- Scores above `never` compare like numbers. They lie `above` floors that sink so many times
before they reach `never`, and a sum of two lies above the next floor. -/
structure LogScale.Deep {W L : Type} [Add L] [LE L] [LT L] (scale : LogScale W L)
    (above : Nat → L → Prop) (times : Nat) : Prop where
  total : TotalOn fun x : L => scale.never < x
  never_lt : ∀ {n : Nat} {x : L}, n ≤ times → above n x → scale.never < x
  sink : ∀ {m n : Nat} {x : L}, m ≤ n → above m x → above n x
  rise : ∀ {n : Nat} {x y : L}, above n x → x ≤ y → above n y
  add : ∀ {n : Nat} {x y : L}, n < times → above n x → above n y → above (n + 1) (x + y)

/-- Two cells above a floor and a rule above all floors score above the floor after the next. -/
theorem LogScale.Deep.add_add {W L : Type} [Add L] [LE L] [LT L] {scale : LogScale W L}
    {above : Nat → L → Prop} {times n : Nat} {x r y : L} (h : scale.Deep above times)
    (hn : n + 1 < times) (hx : above n x) (hr : above 0 r) (hy : above n y) :
    above (n + 2) (x + r + y) := by
  have hsum := h.add (by omega) hx (h.sink n.zero_le hr)
  exact h.add hn hsum (h.sink n.le_succ hy)

namespace Grammar

variable {W L : Type} [Zero W] [LT W] [DecidableLT W] [Add L] [LE L] [LT L] [DecidableLT L]
variable {g : Grammar} {scale : LogScale W L} {weights : RuleWeights W} {tokens : List String}
  {above : Nat → L → Prop} {times : Nat}

omit [Zero W] [LT W] [DecidableLT W] in
/-- A cell scores no less than anything offered to it. -/
theorem exists_ge_of_pick (htotal : TotalOn fun x : L => scale.never < x)
    {cs : List (BestCell L)} (hcs : ∀ c ∈ cs, scale.never < c.score) {c : BestCell L}
    (hc : c ∈ cs) :
    ∃ x, pick (bestScore (L := L) scale.never).beats cs = some x ∧ c.score ≤ x.score := by
  obtain ⟨x, hx⟩ := Option.isSome_iff_exists.1 (isSome_pick.2 (List.ne_nil_of_mem hc))
  obtain ⟨-, -, -, -, hall⟩ := first_of_pick htotal hcs hx
  exact ⟨x, hx, hall c hc⟩

/-- The cell of a word scores no less than a rule of the word. -/
theorem exists_cell_of_word (htotal : TotalOn fun x : L => scale.never < x) {lhs w : String}
    {i a : Nat} (ha : g.index? lhs = some a) (hw : tokens[i]? = some w) (hr : .word lhs w ∈ g.rules)
    (hscore : scale.never < scale.logWeight (weights.get (.word lhs w))) :
    ∃ x, (g.bestChart scale weights tokens).get? ⟨i + 1, i + 1, a⟩ = some x ∧
      scale.logWeight (weights.get (.word lhs w)) ≤ x.score := by
  have hoffer : ⟨scale.logWeight (weights.get (.word lhs w)), .leaf (i + 1)⟩ ∈
      leafOffers (bestScore scale.never) (g.leafRules fun r => scale.logWeight (weights.get r)) w
        (i + 1) a :=
    (mem_leafOffers ha).2 ⟨hr, if_pos hscore⟩
  obtain ⟨x, hx, hle⟩ := exists_ge_of_pick htotal
    (fun c hc => never_lt_of_leaf ((mem_leafOffers ha).1 hc).2) hoffer
  exact ⟨x, by rw [bestChart, g.get?_chart_leaf hw (index?_lt ha), hx], hle⟩

/-- The cell of a longer span scores no less than a rule over the cells of its parts. -/
theorem exists_cell_of_pair (htotal : TotalOn fun x : L => scale.never < x)
    {lhs left right : String} {first mid last a b c : Nat} {x y : BestCell L} (ha : g.index? lhs = some a)
    (hb : g.index? left = some b) (hc : g.index? right = some c)
    (hr : .pair lhs left right ∈ g.rules) (hfirst : 1 ≤ first) (hmid : first ≤ mid)
    (hmid' : mid < last) (hlast : last ≤ tokens.length)
    (hx : (g.bestChart scale weights tokens).get? ⟨first, mid, b⟩ = some x)
    (hy : (g.bestChart scale weights tokens).get? ⟨mid + 1, last, c⟩ = some y)
    (hrule : scale.never < scale.logWeight (weights.get (.pair lhs left right)))
    (hsum : scale.never <
      x.score + scale.logWeight (weights.get (.pair lhs left right)) + y.score) :
    ∃ z, (g.bestChart scale weights tokens).get? ⟨first, last, a⟩ = some z ∧
      x.score + scale.logWeight (weights.get (.pair lhs left right)) + y.score ≤ z.score := by
  obtain ⟨n, hn⟩ := List.mem_iff_getElem?.1 (pair_mem_pairRules.2 hr)
  have hoffers : ∀ z ∈ splitOffers (bestScore scale.never)
      (g.splitRules fun r => scale.logWeight (weights.get r))
      (g.bestChart scale weights tokens).get? first last a, scale.never < z.score := by
    intro z hz
    obtain ⟨mid, n, -, -, -, -, -, -, -, hz⟩ := (mem_splitOffers ha).1 hz
    exact never_lt_of_split hz
  obtain ⟨z, hz, hle⟩ := exists_ge_of_pick htotal hoffers ((mem_splitOffers ha).2
    ⟨mid, n, .mk hn hb hc hmid hmid' hx hy (if_pos ⟨hrule, hsum⟩)⟩)
  refine ⟨z, ?_, hle⟩
  rw [bestChart, g.get?_chart_split hfirst (by omega) hlast (index?_lt ha)]
  exact hz

/-- The words of a derivation by rules above zero have a cell, whose score lies above the floor that
goes with the nesting. -/
theorem exists_cell_of_derivesWithin (h : scale.Deep above times)
    (hlog : ∀ r, g.Positive weights r → above 0 (scale.log (weights.get r))) {n : Nat}
    {lhs : String} {first last a : Nat} (ha : g.index? lhs = some a) (hfirst : 1 ≤ first)
    (hlast : last ≤ tokens.length) (hn : 2 * n ≤ times)
    (hderives : DerivesWithin (g.Positive weights) n lhs (segment tokens (first - 1) last)) :
    ∃ x, (g.bestChart scale weights tokens).get? ⟨first, last, a⟩ = some x ∧
      above (2 * n) x.score := by
  have hrule {r : Rule} (hr : g.Positive weights r) :
      above 0 (scale.logWeight (weights.get r)) ∧
        scale.never < scale.logWeight (weights.get r) := by
    rw [LogScale.logWeight, if_pos hr.2]
    exact ⟨hlog r hr, h.never_lt (Nat.zero_le _) (hlog r hr)⟩
  induction n generalizing lhs first last a with
  | zero => cases hderives
  | succ n ih =>
    generalize hws : segment tokens (first - 1) last = ws at hderives
    cases hderives with
    | @word _ _ w hr =>
      obtain ⟨rfl, hw⟩ := getElem?_of_segment_eq hlast hws
      obtain ⟨habove, hnever⟩ := hrule hr
      obtain ⟨x, hx, hle⟩ := exists_cell_of_word h.total ha hw hr.1 hnever
      rw [Nat.sub_add_cancel hfirst] at hx ⊢
      exact ⟨x, hx, h.rise (h.sink (Nat.zero_le _) habove) hle⟩
    | @pair _ _ left right us vs hr hus hvs =>
      obtain ⟨mid, b, c, hmid, hmid', hb, hc, rfl, rfl⟩ :=
        exists_parting hfirst hlast (fun _ h => h.1) hus.derivesBy hvs.derivesBy hws.symm
      obtain ⟨x, hx, hxabove⟩ := ih hb hfirst (by omega) (by omega) hus
      obtain ⟨y, hy, hyabove⟩ := ih hc (by omega) hlast (by omega) hvs
      obtain ⟨habove, hnever⟩ := hrule hr
      -- two sums, so the floor sinks twice for every level of nesting
      have hsum := h.add_add (by omega) hxabove habove hyabove
      obtain ⟨z, hz, hle⟩ := exists_cell_of_pair h.total ha hb hc hr.1 hfirst hmid hmid' hlast hx hy
        hnever (h.never_lt hn hsum)
      exact ⟨z, hz, h.rise hsum hle⟩

end Grammar

end TabularParsing
