import TabularParsing.Proofs.Earley.BestDerivation
import TabularParsing.Proofs.Fallible

/-!
# Turn by turn

A state is worked off turn by turn: the next place of the agenda is taken and worked on, and what
improved is put on top. Nothing is left to chance, so all turns at a state make one run, and the
run is over when the agenda is empty. With weights between zero and one every state of every
sentence comes to that, in no more turns than there are edges and weights for them to earn.

## Main definitions

* `Turn`, `Turns`: one turn and so many turns at a state.
* `Stage.Idle`: the agenda is empty.
* `Filled`: the states before a position were worked off until nothing was left.

## Main statements

* `exists_turns_of_work`: a run that is not cut off takes turns until the agenda is empty.
* `agendas_run_empty`
-/
namespace TabularParsing.Earley

variable {W : Type}

/-- What the turns at a state work with. -/
structure Stage (W : Type) where
  agenda : Agenda
  chart : Chart W

namespace Stage

/-- Before the first turn. -/
def start (c : Chart W) : Stage W := ⟨⟨0, []⟩, c⟩

/-- Nothing is left to work on. -/
def Idle (k : Nat) (σ : Stage W) : Prop :=
  ∃ s, σ.chart.state k = .ok s ∧ σ.agenda.next? s = none

end Stage

variable [Mul W] [LT W] [DecidableLT W] {g : WeightedGrammar W} {tokens : List String}
variable {k m n : Nat} {σ τ τ' : Stage W}

/-- One turn at a state. -/
inductive Turn (g : WeightedGrammar W) (tokens : List String) (k : Nat) :
    Stage W → Stage W → Prop where
  | take {a a' : Agenda} {c c' : Chart W} {s s' : Array Nat} {place : Nat}
      {improved : List Nat} :
      c.state k = .ok s → a.next? s = some (place, a') →
      process g tokens k place c = .ok (c', improved) → c'.state k = .ok s' →
      Turn g tokens k ⟨a, c⟩ ⟨a'.requeue s' improved, c'⟩

/-- So many turns at a state. -/
inductive Turns (g : WeightedGrammar W) (tokens : List String) (k : Nat) :
    Nat → Stage W → Stage W → Prop where
  | none {σ : Stage W} : Turns g tokens k 0 σ σ
  | next {n : Nat} {σ σ' τ : Stage W} :
      Turn g tokens k σ σ' → Turns g tokens k n σ' τ → Turns g tokens k (n + 1) σ τ

/-- What a turn leads to is determined. -/
theorem Turn.unique (h : Turn g tokens k σ τ) (h' : Turn g tokens k σ τ') : τ = τ' := by
  cases h with
  | take hs hnext hprocess hs₁ =>
    cases h' with
    | take hs' hnext' hprocess' hs₁' =>
      obtain rfl := Except.ok.inj (hs.symm.trans hs')
      obtain ⟨rfl, rfl⟩ := Prod.mk.inj (Option.some.inj (hnext.symm.trans hnext'))
      obtain ⟨rfl, rfl⟩ := Prod.mk.inj (Except.ok.inj (hprocess.symm.trans hprocess'))
      obtain rfl := Except.ok.inj (hs₁.symm.trans hs₁')
      rfl

/-- With an empty agenda no turn is taken. -/
theorem Stage.Idle.not_turn (h : σ.Idle k) : ¬Turn g tokens k σ τ := by
  rintro ⟨hs, hnext, -, -⟩
  obtain ⟨s, hs', hend⟩ := h
  obtain rfl := Except.ok.inj (hs.symm.trans hs')
  rw [hnext] at hend
  cases hend

namespace Turns

/-- No run is longer than one that leads to an empty agenda. -/
theorem le_of_idle (h : Turns g tokens k n σ τ) (hidle : τ.Idle k)
    (h' : Turns g tokens k m σ τ') : m ≤ n := by
  induction h generalizing m with
  | none =>
    cases h' with
    | none => exact Nat.le_refl 0
    | next hturn _ => exact absurd hturn hidle.not_turn
  | next hturn _ ih =>
    cases h' with
    | none => exact Nat.zero_le _
    | next hturn' hrest =>
      obtain rfl := hturn.unique hturn'
      exact Nat.succ_le_succ (ih hidle hrest)

/-- Runs that lead to an empty agenda lead to the same chart. -/
theorem eq_of_idle (h : Turns g tokens k n σ τ) (hidle : τ.Idle k)
    (h' : Turns g tokens k m σ τ') (hidle' : τ'.Idle k) : τ = τ' := by
  induction h generalizing m with
  | none =>
    cases h' with
    | none => rfl
    | next hturn _ => exact absurd hturn hidle.not_turn
  | next hturn _ ih =>
    cases h' with
    | none => exact absurd hturn hidle'.not_turn
    | next hturn' hrest =>
      obtain rfl := hturn.unique hturn'
      exact ih hidle hrest

end Turns

/-- A run that is not cut off takes turns until the agenda is empty. -/
theorem exists_turns_of_work {a : Agenda} {c c' : Chart W}
    (h : work g tokens k n a c = .ok c') :
    ∃ m ≤ n, ∃ a', Turns g tokens k m ⟨a, c⟩ ⟨a', c'⟩ ∧ Stage.Idle k ⟨a', c'⟩ := by
  induction n generalizing a c with
  | zero =>
    unfold work at h
    obtain ⟨s, hs, h⟩ := exists_of_bind_ok h
    cases hnext : a.next? s with
    | none =>
      rw [hnext] at h
      cases h
      exact ⟨0, Nat.le_refl 0, a, .none, s, hs, hnext⟩
    | some next =>
      rw [hnext] at h
      cases h
  | succ n ih =>
    unfold work at h
    obtain ⟨s, hs, h⟩ := exists_of_bind_ok h
    cases hnext : a.next? s with
    | none =>
      rw [hnext] at h
      cases h
      exact ⟨0, Nat.zero_le _, a, .none, s, hs, hnext⟩
    | some next =>
      obtain ⟨place, a₁⟩ := next
      rw [hnext] at h
      obtain ⟨⟨c₁, improved⟩, hprocess, h⟩ := exists_of_bind_ok h
      obtain ⟨s₁, hs₁, h⟩ := exists_of_bind_ok h
      obtain ⟨m, hm, a', hturns, hidle⟩ := ih h
      exact ⟨m + 1, Nat.succ_le_succ hm, a', .next (.take hs hnext hprocess hs₁) hturns, hidle⟩

/-! ## State by state -/

variable [One W]

/-- The states before a position were worked off one after the other, each until nothing was
left. -/
inductive Filled (g : WeightedGrammar W) (tokens : List String) : Nat → Chart W → Prop where
  | initial : Filled g tokens 0 (initialChart g tokens)
  | state {k n : Nat} {c : Chart W} {τ : Stage W} : Filled g tokens k c →
      Turns g tokens k n (.start c) τ → τ.Idle k → Filled g tokens (k + 1) τ.chart

theorem filled_of_foldlM_work {limit : Nat} {c : Chart W}
    (h : (List.range k).foldlM (fun c k => work g tokens k limit ⟨0, []⟩ c)
      (initialChart g tokens) = .ok c) : Filled g tokens k c := by
  induction k generalizing c with
  | zero =>
    cases h
    exact .initial
  | succ k ih =>
    rw [List.range_succ, List.foldlM_append] at h
    obtain ⟨c₀, hc₀, h⟩ := exists_of_bind_ok h
    simp only [List.foldlM_cons, List.foldlM_nil, bind_pure] at h
    obtain ⟨m, -, a, hturns, hidle⟩ := exists_turns_of_work h
    exact .state (ih hc₀) hturns hidle

variable [Zero W] [LE W] (hu : UnitProducts W) (hg : g.WeightsIn fun w => InUnit w)

include hu hg

/-- With enough turns a state is worked off, and leaves a reachable chart with its states
settled. -/
theorem work_ok (hk : k ≤ tokens.length) {c : Chart W} (hreach : Reachable g tokens c)
    (hbelow : SettledBelow (fun x y => x ≤ y) g tokens k c) :
    ∃ c', work g tokens k (turnBound g tokens) ⟨0, []⟩ c = .ok c' ∧ Reachable g tokens c' ∧
      SettledBelow (fun x y => x ≤ y) g tokens (k + 1) c' := by
  have hsize : k < c.states.size := by
    rw [hreach.size_states]
    omega
  have hs := Array.getElem?_eq_getElem hsize
  have hcovers : Agenda.Covers (fun x y => x ≤ y) g tokens ⟨0, []⟩ c c.states[k] :=
    Agenda.covers_start c _
  refine (work_saturated hu.ranking hg hreach hs hbelow hcovers).resolve_left ?_
  refine work_ne_outOfSteps hu hg hreach hs hcovers ?_
  have hbound := hreach.size_add_potential_le hu hg hs
  simp only [List.length_nil]
  omega

theorem Filled.reachable {c : Chart W} (h : Filled g tokens k c) (hk : k ≤ tokens.length + 1) :
    Reachable g tokens c ∧ SettledBelow (fun x y => x ≤ y) g tokens k c := by
  induction h with
  | initial => exact ⟨.initial, fun _ _ _ hlt => absurd hlt (Nat.not_lt_zero _)⟩
  | @state k n c τ _ hturns hidle ih =>
    obtain ⟨hreach, hbelow⟩ := ih (Nat.le_of_succ_le hk)
    obtain ⟨c', hwork, hreach', hbelow'⟩ := work_ok hu hg (Nat.le_of_succ_le_succ hk) hreach hbelow
    obtain ⟨m, -, a, hturns', hidle'⟩ := exists_turns_of_work hwork
    obtain rfl := hturns'.eq_of_idle hidle' hturns hidle
    exact ⟨hreach', hbelow'⟩

/-- With weights between zero and one every state of a sentence is worked off until its agenda is
empty, in a bounded number of turns, and no turns can be taken beyond. So the whole chart is
filled, and a parse that may take as many turns answers that chart. -/
theorem agendas_run_empty (tokens : List String) :
    (∀ k ≤ tokens.length, ∀ c, Filled g tokens k c → ∃ n ≤ turnBound g tokens, ∃ τ : Stage W,
      Turns g tokens k n (.start c) τ ∧ τ.Idle k ∧
        ∀ m τ', Turns g tokens k m (.start c) τ' → m ≤ n) ∧
    ∀ limit, turnBound g tokens ≤ limit →
      ∃ c, Filled g tokens (tokens.length + 1) c ∧ fillChart limit g tokens = .ok c := by
  constructor
  · intro k hk c hfilled
    obtain ⟨hreach, hbelow⟩ := hfilled.reachable hu hg (Nat.le_succ_of_le hk)
    obtain ⟨c', hwork, -, -⟩ := work_ok hu hg hk hreach hbelow
    obtain ⟨n, hn, a, hturns, hidle⟩ := exists_turns_of_work hwork
    exact ⟨n, hn, ⟨a, c'⟩, hturns, hidle, fun m τ' h => hturns.le_of_idle hidle h⟩
  · intro limit hlimit
    rcases fillChart_saturated limit hu.ranking hg with h | ⟨c, h, -⟩
    · exact absurd h (fillChart_ne_outOfSteps hu hg hlimit)
    · exact ⟨c, filled_of_foldlM_work h, h⟩

omit hu hg

/-- Every loop there can be, of weight one: a rule that leads back to its own symbol, a cycle of two
such rules and a rule that is recursive on both sides. -/
def loops : WeightedGrammar ℚ :=
  (((((WeightedGrammar.empty "S").addFilled
    ⟨"S", [.nonterminal "S"], 1⟩ (by simp)).addFilled
    ⟨"S", [.nonterminal "T"], 1⟩ (by simp)).addFilled
    ⟨"T", [.nonterminal "S"], 1⟩ (by simp)).addFilled
    ⟨"S", [.nonterminal "S", .nonterminal "S"], 1⟩ (by simp)).addFilled
    ⟨"S", [.terminal "a"], 1 / 2⟩ (by simp)

theorem agendas_run_empty_loops :
    (UnitProducts ℚ ∧ loops.WeightsIn fun w => InUnit w) ∧
    (∃ n ≤ turnBound loops ["a", "a"], ∃ τ : Stage ℚ,
      Turns loops ["a", "a"] 0 n (.start (initialChart loops ["a", "a"])) τ ∧ τ.Idle 0) ∧
    ∃ c, Filled loops ["a", "a"] 3 c ∧
      fillChart (turnBound loops ["a", "a"]) loops ["a", "a"] = .ok c := by
  have hw : loops.WeightsIn fun w => InUnit w := by
    repeat' refine WeightedGrammar.WeightsIn.addFilled ?_ _ (by norm_num [InUnit])
    exact WeightedGrammar.weightsIn_empty _
  obtain ⟨hstates, hfill⟩ := agendas_run_empty unitProducts_exact hw ["a", "a"]
  obtain ⟨n, hn, τ, hturns, hidle, -⟩ := hstates 0 (by decide) _ .initial
  exact ⟨⟨unitProducts_exact, hw⟩, ⟨n, hn, τ, hturns, hidle⟩, hfill _ (Nat.le_refl _)⟩

end TabularParsing.Earley
