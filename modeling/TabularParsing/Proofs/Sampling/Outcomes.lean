import Mathlib.Logic.Relation
import TabularParsing.Proofs.Sampling.Expansion
import TabularParsing.Proofs.Sampling.Intervals

/-!
# What random sentences can be

With exact sums and free draws an expansion can turn out as any derivation by rules that weigh more
than zero and nests no deeper than the limit, and as no other. It fails at a symbol that it came to
by such rules and that has none of its own, or because pair rules nest beyond the limit.

## Main definitions

* `Grammar.Derivation`: derivations as trees.
* `Grammar.randomDerivation`: the derivation that a random sentence is read off.
* `Grammar.Leads`, `Grammar.Nests`: symbols below each other by pair rules.
* `Grammar.Fails`: how an expansion can fail.

## Main statements

* `Grammar.randomDerivation_of_ok`, `Grammar.exists_source_of_derivation`: the derivations that are
  drawn.
* `Grammar.error_of_randomDerivation`
* `Grammar.randomSentence_outcomes`
-/
namespace TabularParsing

namespace Grammar

/-- A word below its category, or a symbol above two derivations. -/
inductive Derivation where
  | word (lhs w : String)
  | pair (lhs : String) (left right : Derivation)

namespace Derivation

/-- The symbol that is derived from. -/
def symbol : Derivation → String
  | word lhs _ => lhs
  | pair lhs _ _ => lhs

def words : Derivation → List String
  | word _ w => [w]
  | pair _ left right => left.words ++ right.words

def rules : Derivation → List Rule
  | word lhs w => [.word lhs w]
  | pair lhs left right => .pair lhs left.symbol right.symbol :: (left.rules ++ right.rules)

/-- How many pair rules stand below each other. -/
def nesting : Derivation → Nat
  | word _ _ => 0
  | pair _ left right => max left.nesting right.nesting + 1

end Derivation

section Draws

variable {W G : Type} [Zero W] [Add W] [LE W] [DecidableLE W]

/-- The derivation of a symbol that an expansion takes, which may still nest `n` expansions. -/
def randomDerivation (draw : Drawing G W) (g : Grammar) (weights : RuleWeights W) :
    Nat → String → G → Except SamplingError Derivation × G
  | 0, _, source => (.error (.depthExceeded maxDepth), source)
  | n + 1, symbol, source =>
    match pickRule draw weights (g.alternatives symbol) symbol source with
    | (.error e, source) => (.error e, source)
    | (.ok r, source) =>
      match r.rhs with
      | .word w => (.ok (.word symbol w), source)
      | .pair left right =>
        match randomDerivation draw g weights n left source with
        | (.error e, source) => (.error e, source)
        | (.ok d, source) =>
          match randomDerivation draw g weights n right source with
          | (.error e, source) => (.error e, source)
          | (.ok d', source) => (.ok (.pair symbol d d'), source)

variable {draw : Drawing G W} {g : Grammar} {weights : RuleWeights W}

/-- An expansion answers the words of its derivation. -/
theorem expand_eq (n : Nat) (symbol : String) (source : G) :
    g.expand draw weights n symbol source =
      ((g.randomDerivation draw weights n symbol source).1.map Derivation.words,
        (g.randomDerivation draw weights n symbol source).2) := by
  induction n generalizing symbol source with
  | zero => rfl
  | succ n ih =>
    rcases hpick : pickRule draw weights (g.alternatives symbol) symbol source with
      ⟨e | ⟨lhs, w | ⟨left, right⟩⟩, source₁⟩
    · simp only [expand, randomDerivation, hpick, Except.map]
    · simp only [expand, randomDerivation, hpick, Except.map, Derivation.words]
    · rcases hleft : g.randomDerivation draw weights n left source₁ with ⟨e | d, source₂⟩
      · simp only [expand, randomDerivation, hpick, ih, hleft, Except.map]
      · rcases hright : g.randomDerivation draw weights n right source₂ with ⟨e | d', source₃⟩ <;>
          simp only [expand, randomDerivation, hpick, ih, hleft, hright, Except.map,
            Derivation.words]

/-- A random sentence is read off a random derivation. -/
theorem randomSentence_eq (symbol : String) (source : G) :
    g.randomSentence draw weights symbol source =
      ((g.randomDerivation draw weights (maxDepth + 1) symbol source).1.map fun d =>
          " ".intercalate d.words,
        (g.randomDerivation draw weights (maxDepth + 1) symbol source).2) := by
  rw [randomSentence, expand_eq]
  rcases g.randomDerivation draw weights (maxDepth + 1) symbol source with ⟨e | d, source₁⟩ <;> rfl

end Draws

instance {W : Type} [Zero W] [LT W] [DecidableLT W] (g : Grammar) (weights : RuleWeights W) :
    DecidablePred (g.Positive weights) :=
  fun _ => inferInstanceAs (Decidable (_ ∧ _))

/-! ## Symbols below each other -/

section Leads

variable {W : Type} [Zero W] [LT W] {g : Grammar} {weights : RuleWeights W} {symbol below : String}

/-- The second symbol is a child of the first by a pair rule that weighs more than zero. -/
def Leads (g : Grammar) (weights : RuleWeights W) (symbol below : String) : Prop :=
  ∃ left right, g.Positive weights (.pair symbol left right) ∧ (below = left ∨ below = right)

/-- Pair rules that weigh more than zero nest so deep, one in a child of the other. -/
inductive Nests (g : Grammar) (weights : RuleWeights W) : Nat → String → Prop where
  | none {symbol : String} : Nests g weights 0 symbol
  | next {n : Nat} {symbol below : String} : g.Leads weights symbol below →
      Nests g weights n below → Nests g weights (n + 1) symbol

/-- Where a height sinks from each symbol to its children, none nests more rules than its height. -/
theorem Nests.le_height {n : Nat} (h : g.Nests weights n symbol) {height : String → Nat}
    (hsinks : ∀ X Y, g.Leads weights X Y → height Y < height X) : n ≤ height symbol := by
  induction h with
  | none => exact Nat.zero_le _
  | next hleads _ ih => exact Nat.lt_of_le_of_lt ih (hsinks _ _ hleads)

/-- How an expansion that may still nest `n` expansions can fail. -/
inductive Fails (g : Grammar) (weights : RuleWeights W) (n : Nat) (symbol : String) :
    SamplingError → Prop where
  /-- At a symbol that it comes to by rules that weigh more than zero and that has no such rule. -/
  | stuck {X : String} : Relation.ReflTransGen (g.Leads weights) symbol X →
      (∀ r ∈ g.alternatives X, ¬0 < weights.get r) → Fails g weights n symbol (.noAlternatives X)
  /-- At the limit, where as many pair rules nest. -/
  | deep : g.Nests weights n symbol → Fails g weights n symbol (.depthExceeded maxDepth)

/-- What fails below a child fails below the symbol. -/
theorem Fails.of_child {n : Nat} {e : SamplingError} (h : g.Fails weights n below e)
    (hleads : g.Leads weights symbol below) : g.Fails weights (n + 1) symbol e := by
  cases h with
  | stuck hreach hnone => exact .stuck (hreach.head hleads) hnone
  | deep hnests => exact .deep (.next hleads hnests)

end Leads

/-! ## Derivations that are drawn -/

section Sums

variable {W G : Type} [Zero W] [Add W] [LE W] [LT W] [DecidableLE W] {draw : Drawing G W}
  {g : Grammar} {weights : RuleWeights W} {symbol : String} {source source' : G} {n : Nat}
  {d : Derivation}

omit [Add W] [LT W] [DecidableLE W] in
theorem nonneg_alternatives (hweights : ∀ r ∈ g.rules, 0 ≤ weights.get r) (symbol : String) :
    ∀ r ∈ g.alternatives symbol, 0 ≤ weights.get r :=
  fun r hr => hweights r (mem_alternatives.1 hr).1

/-- A derivation that is drawn derives its symbol by rules that weigh more than zero, and nests no
deeper than it may. -/
theorem randomDerivation_of_ok (hs : NonnegSums W) (hdraw : draw.Below)
    (hweights : ∀ r ∈ g.rules, 0 ≤ weights.get r)
    (h : g.randomDerivation draw weights n symbol source = (.ok d, source')) :
    d.symbol = symbol ∧ (∀ r ∈ d.rules, g.Positive weights r) ∧ d.nesting < n := by
  induction n generalizing symbol source source' d with
  | zero => cases h
  | succ n ih =>
    rw [randomDerivation] at h
    split at h
    · cases h
    · rename_i r source₁ hpick
      obtain ⟨hmem, hpos⟩ := pos_of_pickRule hs hdraw (nonneg_alternatives hweights _) hpick
      obtain ⟨hr, rfl⟩ := mem_alternatives.1 hmem
      obtain ⟨lhs, rhs⟩ := r
      cases rhs with
      | word w =>
        obtain ⟨hd, -⟩ := Prod.mk.inj h
        obtain rfl := Except.ok.inj hd
        refine ⟨rfl, fun q hq => ?_, Nat.succ_pos n⟩
        rw [List.mem_singleton.1 hq]
        exact ⟨hr, hpos⟩
      | pair left right =>
        simp only at h
        split at h
        · cases h
        · rename_i d₁ source₂ hleft
          split at h
          · cases h
          · rename_i d₂ source₃ hright
            obtain ⟨hd, -⟩ := Prod.mk.inj h
            obtain rfl := Except.ok.inj hd
            obtain ⟨hsymbol, hrules, hnesting⟩ := ih hleft
            obtain ⟨hsymbol', hrules', hnesting'⟩ := ih hright
            refine ⟨rfl, fun q hq => ?_, Nat.succ_lt_succ (max_lt hnesting hnesting')⟩
            rcases List.mem_cons.1 hq with rfl | hq
            · rw [hsymbol, hsymbol']
              exact ⟨hr, hpos⟩
            · exact (List.mem_append.1 hq).elim (hrules q) (hrules' q)

end Sums

section Exact

variable {W G : Type} [AddCommGroup W] [LinearOrder W] [IsOrderedAddMonoid W]
  {draw : Drawing G W} {g : Grammar} {weights : RuleWeights W} {symbol : String}
  {source source' : G} {n : Nat} {d : Derivation}

/-- A rule that weighs more than zero is picked by some draw, whatever is drawn next. -/
theorem exists_source_of_positive (hdraw : draw.Free)
    (hweights : ∀ r ∈ g.rules, 0 ≤ weights.get r) {lhs : String} {rhs : Rhs}
    (hr : g.Positive weights ⟨lhs, rhs⟩) (source' : G) :
    ∃ source, pickRule draw weights (g.alternatives lhs) lhs source = (.ok ⟨lhs, rhs⟩, source') := by
  obtain ⟨low, hlow, hhigh, hpick⟩ := exists_interval_of_mem lhs hdraw.below
    (nonneg_alternatives hweights lhs) (g.nodup_alternatives lhs)
    (mem_alternatives.2 ⟨hr.1, rfl⟩)
  have hlt : low < low + weights.get ⟨lhs, rhs⟩ := lt_add_of_pos_right low hr.2
  obtain ⟨source, hdrawn⟩ := hdraw.any _ low source' hlow (hlt.trans_le hhigh)
  exact ⟨source, (hpick source source').2 ⟨low, ⟨le_rfl, hlt⟩, hdrawn⟩⟩

/-- A derivation by rules that weigh more than zero is drawn if it nests no deeper than it may. The
draws are found from the last one back. -/
theorem exists_source_of_derivation (hdraw : draw.Free)
    (hweights : ∀ r ∈ g.rules, 0 ≤ weights.get r) (hrules : ∀ r ∈ d.rules, g.Positive weights r)
    (hnesting : d.nesting < n) (source' : G) :
    ∃ source, g.randomDerivation draw weights n d.symbol source = (.ok d, source') := by
  induction d generalizing n source' with
  | word lhs w =>
    obtain ⟨n, rfl⟩ := Nat.exists_eq_succ_of_ne_zero (Nat.ne_zero_of_lt hnesting)
    obtain ⟨source, hpick⟩ := exists_source_of_positive hdraw hweights
      (hrules _ List.mem_cons_self) source'
    refine ⟨source, ?_⟩
    show g.randomDerivation draw weights (n + 1) lhs source = _
    simp only [randomDerivation, hpick]
  | pair lhs left right ihleft ihright =>
    obtain ⟨n, rfl⟩ := Nat.exists_eq_succ_of_ne_zero (Nat.ne_zero_of_lt hnesting)
    have hmax : max left.nesting right.nesting < n := Nat.lt_of_succ_lt_succ hnesting
    obtain ⟨source₂, hright⟩ := ihright
      (fun q hq => hrules q (List.mem_cons_of_mem _ (List.mem_append_right _ hq)))
      ((le_max_right _ _).trans_lt hmax) source'
    obtain ⟨source₁, hleft⟩ := ihleft
      (fun q hq => hrules q (List.mem_cons_of_mem _ (List.mem_append_left _ hq)))
      ((le_max_left _ _).trans_lt hmax) source₂
    obtain ⟨source, hpick⟩ := exists_source_of_positive hdraw hweights
      (hrules _ List.mem_cons_self) source₁
    refine ⟨source, ?_⟩
    show g.randomDerivation draw weights (n + 1) lhs source = _
    simp only [randomDerivation, hpick, hleft, hright]

theorem error_of_randomDerivation (hdraw : draw.Free)
    (hweights : ∀ r ∈ g.rules, 0 ≤ weights.get r) {e : SamplingError}
    (h : g.randomDerivation draw weights n symbol source = (.error e, source')) :
    g.Fails weights n symbol e := by
  induction n generalizing symbol source source' with
  | zero =>
    obtain rfl := Except.error.inj (Prod.mk.inj h).1
    exact .deep .none
  | succ n ih =>
    have hnonneg := nonneg_alternatives hweights symbol
    rw [randomDerivation] at h
    split at h
    · rename_i e' source₁ hpick
      obtain rfl := Except.error.inj (Prod.mk.inj h).1
      obtain ⟨rfl, hnone⟩ := error_of_pickRule hdraw hnonneg hpick
      exact .stuck .refl hnone
    · rename_i r source₁ hpick
      obtain ⟨hmem, hpos⟩ := pos_of_pickRule nonnegSums_exact hdraw.below hnonneg hpick
      obtain ⟨hr, rfl⟩ := mem_alternatives.1 hmem
      obtain ⟨lhs, rhs⟩ := r
      cases rhs with
      | word w => cases h
      | pair left right =>
        simp only at h
        split at h
        · rename_i e' source₂ hleft
          obtain rfl := Except.error.inj (Prod.mk.inj h).1
          exact (ih hleft).of_child ⟨left, right, ⟨hr, hpos⟩, .inl rfl⟩
        · rename_i d₁ source₂ hleft
          split at h
          · rename_i e' source₃ hright
            obtain rfl := Except.error.inj (Prod.mk.inj h).1
            exact (ih hright).of_child ⟨left, right, ⟨hr, hpos⟩, .inr rfl⟩
          · cases h

theorem error_of_randomSentence (hdraw : draw.Free) (hweights : ∀ r ∈ g.rules, 0 ≤ weights.get r)
    {e : SamplingError} (h : g.randomSentence draw weights symbol source = (.error e, source')) :
    g.Fails weights (maxDepth + 1) symbol e := by
  rw [randomSentence_eq] at h
  rcases hd : g.randomDerivation draw weights (maxDepth + 1) symbol source with ⟨e' | d, source₁⟩
  · rw [hd] at h
    obtain rfl := Except.error.inj (Prod.mk.inj h).1
    exact error_of_randomDerivation hdraw hweights hd
  · rw [hd] at h
    cases h

/-- With exact sums and free draws random sentences are random derivations read off. An alternative
is picked for the draws in an interval as long as its weight. A derivation is drawn from some source
exactly if its rules weigh more than zero and nest no deeper than the limit. What fails is a symbol
below the first one that no rule rewrites, or the limit, and then rules do nest deeper. -/
theorem randomSentence_outcomes [Nonempty G] (hdraw : draw.Free)
    (hweights : ∀ r ∈ g.rules, 0 ≤ weights.get r) (symbol : String) :
    (∀ X, ∀ r ∈ g.alternatives X, ∃ low, 0 ≤ low ∧
      low + weights.get r ≤ ((g.alternatives X).map weights.get).sum ∧
      ∀ source source', pickRule draw weights (g.alternatives X) X source = (.ok r, source') ↔
        ∃ u ∈ Set.Ico low (low + weights.get r),
          draw ((g.alternatives X).map weights.get).sum source = some (u, source')) ∧
    (∀ source, g.randomSentence draw weights symbol source =
      ((g.randomDerivation draw weights (maxDepth + 1) symbol source).1.map fun d =>
          " ".intercalate d.words,
        (g.randomDerivation draw weights (maxDepth + 1) symbol source).2)) ∧
    (∀ d : Derivation,
      (∃ source source',
        g.randomDerivation draw weights (maxDepth + 1) symbol source = (.ok d, source') ∧
        g.randomSentence draw weights symbol source = (.ok (" ".intercalate d.words), source')) ↔
      d.symbol = symbol ∧ (∀ r ∈ d.rules, g.Positive weights r) ∧ d.nesting ≤ maxDepth) ∧
    (∀ source source' e, g.randomSentence draw weights symbol source = (.error e, source') →
      g.Fails weights (maxDepth + 1) symbol e) ∧
    ∀ height : String → Nat, (∀ X Y, g.Leads weights X Y → height Y < height X) →
      height symbol ≤ maxDepth → ∀ source source' limit,
        g.randomSentence draw weights symbol source ≠ (.error (.depthExceeded limit), source') := by
  refine ⟨fun X r hr => ?_, randomSentence_eq symbol, fun d => ⟨?_, ?_⟩,
    fun _ _ _ h => error_of_randomSentence hdraw hweights h, ?_⟩
  · exact exists_interval_of_mem X hdraw.below (nonneg_alternatives hweights X)
      (g.nodup_alternatives X) hr
  · rintro ⟨source, source', hd, -⟩
    obtain ⟨hsymbol, hrules, hnesting⟩ :=
      randomDerivation_of_ok nonnegSums_exact hdraw.below hweights hd
    exact ⟨hsymbol, hrules, Nat.le_of_lt_succ hnesting⟩
  · rintro ⟨rfl, hrules, hnesting⟩
    obtain ⟨source'⟩ := ‹Nonempty G›
    obtain ⟨source, hd⟩ := exists_source_of_derivation hdraw hweights hrules
      (Nat.lt_succ_of_le hnesting) source'
    refine ⟨source, source', hd, ?_⟩
    rw [randomSentence_eq, hd]
    rfl
  · intro height hsinks hheight source source' limit h
    cases error_of_randomSentence hdraw hweights h with
    | deep hnests =>
      exact absurd (hnests.le_height hsinks) (Nat.not_le_of_lt (Nat.lt_succ_of_le hheight))

end Exact

/-- Sentences of any length, and a word that is never said. -/
def trailing : Grammar :=
  .make [.pair "S" "S" "T", .word "S" "x", .word "T" "y", .word "T" "z"] (by simp)

def trailingWeights : RuleWeights ℚ :=
  (((RuleWeights.empty.insert (.pair "S" "S" "T") (1 / 2)).insert (.word "S" "x") (1 / 2)).insert
    (.word "T" "y") 1).insert (.word "T" "z") 0

theorem randomSentence_outcomes_trailing :
    Drawing.Free drawFraction ∧ (∀ r ∈ trailing.rules, 0 ≤ trailingWeights.get r) ∧
    (∃ source source', trailing.randomSentence drawFraction trailingWeights "S" source =
      (.ok "x y y", source')) ∧
    ¬∃ source source', trailing.randomDerivation drawFraction trailingWeights (maxDepth + 1) "S"
        source = (.ok (.pair "S" (.word "S" "x") (.word "T" "z")), source') ∧
      trailing.randomSentence drawFraction trailingWeights "S" source = (.ok "x z", source') := by
  have hweights : ∀ r ∈ trailing.rules, 0 ≤ trailingWeights.get r := by decide +kernel
  obtain ⟨-, -, hdrawn, -⟩ := randomSentence_outcomes free_drawFraction hweights "S"
  refine ⟨free_drawFraction, hweights, ?_, ?_⟩
  · have hpositive : ∀ r ∈ (Derivation.pair "S" (.pair "S" (.word "S" "x") (.word "T" "y"))
        (.word "T" "y")).rules, trailing.Positive trailingWeights r := by
      decide +kernel
    obtain ⟨source, source', -, hsentence⟩ := (hdrawn _).2 ⟨rfl, hpositive, by decide⟩
    exact ⟨source, source', hsentence⟩
  · intro h
    obtain ⟨-, hpositive, -⟩ := (hdrawn (.pair "S" (.word "S" "x") (.word "T" "z"))).1 h
    exact absurd (hpositive (.word "T" "z") (by decide)).2 (by decide +kernel)

end Grammar

end TabularParsing
