import TabularParsing.Earley.Agenda
import TabularParsing.Proofs.Earley.Arena

/-!
# What one turn adds

Working on an item adds exactly what follows from it: predictions, scanned words, and the items
that waited for it with their dots moved over it. A completed item covers words, so the items that
wait for it stand in an earlier state, which the turn leaves alone.

## Main definitions

* `Infers`: what follows from an item.
* `Item.Proper`: what stands before the dot covers words.

## Main statement

* `process_ok`: a turn adds what follows from its item, and nothing else.
-/
namespace TabularParsing.Earley

variable {W : Type}

/-- No rule is empty, the dot stands in the rule, and what stands before it covers words. -/
structure Item.Proper (i : Item W) : Prop where
  productions_ne_nil : i.dotted.rule.productions ≠ []
  dot_le : i.dotted.dot ≤ i.dotted.rule.productions.length
  origin_le : i.origin ≤ i.stop
  origin_lt : 0 < i.dotted.dot → i.origin < i.stop

theorem Item.Proper.lt_of_next? {i : Item W} (h : i.Proper) (hnext : i.dotted.next? = none) :
    i.origin < i.stop := by
  refine h.origin_lt (Nat.pos_of_ne_zero fun hdot => h.productions_ne_nil ?_)
  rw [DottedRule.next?, hdot, List.getElem?_eq_none_iff] at hnext
  exact List.eq_nil_of_length_eq_zero (Nat.le_zero.1 hnext)

namespace Item

/-- An alternative of a symbol that is awaited at a position. -/
def predicted (k : Nat) (r : WeightedRule W) : Item W :=
  ⟨.ofRule r, k, k, .prediction, [], r.weight, false⟩

/-- A category over the word at a position. -/
def listed (k : Nat) (category word : String) (w : W) : Item W :=
  ⟨⟨⟨category, [.terminal word], w⟩, 1⟩, k, k + 1, .scan, [], w, false⟩

/-- The dot moved over a word. -/
def overWord (i : Item W) : Item W :=
  ⟨i.dotted.advance, i.origin, i.stop + 1, .scan, i.children, i.weight, i.forGoal⟩

/-- The dot moved over the completed item at a place. -/
def overItem [Mul W] (waiting : Item W) (place : Nat) (done : Item W) : Item W :=
  ⟨waiting.dotted.advance, waiting.origin, done.stop, .completion, waiting.children ++ [place],
    done.weight * waiting.weight, waiting.forGoal⟩

end Item

section Infers

variable [Mul W] {g : WeightedGrammar W} {tokens : List String} {c : Chart W} {place : Nat}
variable {i j : Item W}

/-- What follows from the item at a place of a chart. -/
inductive Infers (g : WeightedGrammar W) (tokens : List String) (c : Chart W) (place : Nat)
    (i : Item W) : Item W → Prop where
  /-- A symbol that is awaited starts its alternatives. -/
  | predicted {p : Production} {r : WeightedRule W} :
      i.dotted.next? = some p → p.isTerminal = false → g.isCategory p.symbol = false →
      r ∈ g.alternatives p.symbol →
      Infers g tokens c place i (.predicted i.stop r)
  /-- A category that is awaited covers the next word if it lists it. -/
  | listed {p : Production} {word : String} {w : W} :
      i.dotted.next? = some p → tokens[i.stop]? = some word →
      g.wordWeight? p.symbol word = some w →
      Infers g tokens c place i (.listed i.stop p.symbol word w)
  /-- The dot moves over the next word. -/
  | literal {p : Production} :
      i.dotted.next? = some p → p.isTerminal = true → g.isCategory p.symbol = false →
      tokens[i.stop]? = some p.symbol → Infers g tokens c place i i.overWord
  /-- The dot of an item that waits moves over the completed one. -/
  | completed {waitingPlace : Nat} {waiting : Item W} {p : Production} :
      i.dotted.next? = none → i.forGoal = false → c.items[waitingPlace]? = some waiting →
      waiting.stop = i.origin → waiting.dotted.next? = some p → p.symbol = i.symbol →
      Infers g tokens c place i (waiting.overItem place i)

/-- What follows stops with its premise or one word later, if there is such a word. -/
theorem Infers.stop_eq_or (h : Infers g tokens c place i j) :
    j.stop = i.stop ∨ j.stop = i.stop + 1 ∧ i.stop < tokens.length := by
  cases h with
  | predicted => exact .inl rfl
  | listed _ hword _ => exact .inr ⟨rfl, (List.getElem?_eq_some_iff.1 hword).1⟩
  | literal _ _ _ hword => exact .inr ⟨rfl, (List.getElem?_eq_some_iff.1 hword).1⟩
  | completed => exact .inl rfl

theorem Infers.stop_le (h : Infers g tokens c place i j) : i.stop ≤ j.stop := by
  rcases h.stop_eq_or with hj | ⟨hj, -⟩ <;> omega

theorem Infers.stop_lt {n : Nat} (hn : n = tokens.length + 1) (hi : i.stop < n)
    (h : Infers g tokens c place i j) : j.stop < n := by
  rcases h.stop_eq_or with hj | ⟨hj, hlt⟩ <;> omega

theorem Infers.proper (hc : c.All Item.Proper) (hi : i.Proper) (h : Infers g tokens c place i j) :
    j.Proper := by
  cases h with
  | predicted _ _ _ hr =>
    exact ⟨(g.filed _ _ hr).2, Nat.zero_le _, Nat.le_refl _, fun h => absurd h (Nat.lt_irrefl 0)⟩
  | listed =>
    exact ⟨List.cons_ne_nil _ _, Nat.le_refl 1, Nat.le_succ _, fun _ => Nat.lt_succ_self _⟩
  | literal hnext =>
    exact ⟨hi.productions_ne_nil, (List.getElem?_eq_some_iff.1 hnext).1,
      Nat.le_succ_of_le hi.origin_le, fun _ => Nat.lt_succ_of_le hi.origin_le⟩
  | @completed _ waiting _ hnext _ hw hstop hwnext _ =>
    have hle := (hc hw).origin_le
    have hlt : waiting.origin < i.stop := Nat.lt_of_le_of_lt (hstop ▸ hle) (hi.lt_of_next? hnext)
    exact ⟨(hc hw).productions_ne_nil, (List.getElem?_eq_some_iff.1 hwnext).1, Nat.le_of_lt hlt,
      fun _ => hlt⟩

/-- Adding to this state and to later ones does not change what follows from an item, for what it
completes stands in an earlier state. -/
theorem Infers.of_adds [LT W] {c' : Chart W} {js : List (Item W)} {improved : List Nat}
    (hadds : c.Adds js improved c') (hjs : ∀ j ∈ js, i.stop ≤ j.stop) (hi : i.Proper)
    (h : Infers g tokens c' place i j) : Infers g tokens c place i j := by
  cases h with
  | predicted h hterminal hcategory hrule => exact .predicted h hterminal hcategory hrule
  | listed h hword hw => exact .listed h hword hw
  | literal h hterminal hcategory hword => exact .literal h hterminal hcategory hword
  | completed h hforGoal hw hwstop hwnext hwsymbol =>
    rcases hadds.mem_or_mem hw with hw | hw
    · exact .completed h hforGoal hw hwstop hwnext hwsymbol
    · have hle := hjs _ hw
      have hlt := hi.lt_of_next? h
      omega

/-- The item that scanning adds, if it adds one. -/
def scanned? (g : WeightedGrammar W) (tokens : List String) (i : Item W) (p : Production) :
    Option (Item W) :=
  tokens[i.stop]? >>= fun word =>
    if g.isCategory p.symbol then
      (g.wordWeight? p.symbol word).map (.listed i.stop p.symbol word)
    else if p.symbol = word then some i.overWord
    else none

/-- What waits with its dot moved over the completed item, if it waits for that. -/
def overItem? (place : Nat) (done waiting : Item W) : Option (Item W) :=
  waiting.dotted.next? >>= fun p =>
    if p.symbol = done.symbol then some (waiting.overItem place done) else none

theorem overItem?_eq_some_iff {waiting : Item W} :
    overItem? place i waiting = some j ↔ ∃ p, waiting.dotted.next? = some p ∧
      p.symbol = i.symbol ∧ j = waiting.overItem place i := by
  rw [overItem?]
  cases waiting.dotted.next? with
  | none => simp
  | some p => simp [eq_comm]

theorem infers_iff_predicted {p : Production} (hnext : i.dotted.next? = some p)
    (hp : ¬(p.isTerminal || g.isCategory p.symbol) = true) :
    Infers g tokens c place i j ↔ j ∈ (g.alternatives p.symbol).map (.predicted i.stop) := by
  have ⟨hterminal, hcategory⟩ : p.isTerminal = false ∧ g.isCategory p.symbol = false := by
    simpa using hp
  rw [List.mem_map]
  constructor
  · intro h
    cases h with
    | predicted h _ _ hr =>
      obtain rfl := Option.some.inj (hnext.symm.trans h)
      exact ⟨_, hr, rfl⟩
    | listed h _ hw =>
      obtain rfl := Option.some.inj (hnext.symm.trans h)
      rw [WeightedGrammar.isCategory_of_wordWeight? hw] at hcategory
      cases hcategory
    | literal h hterminal' =>
      obtain rfl := Option.some.inj (hnext.symm.trans h)
      rw [hterminal'] at hterminal
      cases hterminal
    | completed h => rw [hnext] at h; cases h
  · rintro ⟨r, hr, rfl⟩
    exact .predicted hnext hterminal hcategory hr

theorem infers_iff_scanned {p : Production} (hnext : i.dotted.next? = some p)
    (hp : (p.isTerminal || g.isCategory p.symbol) = true) :
    Infers g tokens c place i j ↔ scanned? g tokens i p = some j := by
  rw [Bool.or_eq_true] at hp
  constructor
  · intro h
    cases h with
    | predicted h hterminal hcategory =>
      obtain rfl := Option.some.inj (hnext.symm.trans h)
      simp_all
    | listed h hword hw =>
      obtain rfl := Option.some.inj (hnext.symm.trans h)
      simp [scanned?, hword, hw, WeightedGrammar.isCategory_of_wordWeight? hw]
    | literal h _ hcategory hword =>
      obtain rfl := Option.some.inj (hnext.symm.trans h)
      simp [scanned?, hword, hcategory]
    | completed h => rw [hnext] at h; cases h
  · intro h
    obtain ⟨word, hword, h⟩ := Option.bind_eq_some_iff.1 h
    split at h
    · obtain ⟨w, hw, rfl⟩ := Option.map_eq_some_iff.1 h
      exact .listed hnext hword hw
    · rename_i hcategory
      split at h
      · rename_i hsymbol
        obtain rfl := Option.some.inj h
        exact .literal hnext (hp.resolve_right hcategory) (by simpa using hcategory)
          (hsymbol ▸ hword)
      · cases h

end Infers

/-! ## The operations -/

section Operations

variable [LT W] [DecidableLT W] {c : Chart W} {place : Nat} {i j : Item W}

theorem add_one (hc : c.Valid) (hj : j.stop < c.states.size) :
    ∃ improved c', (do
      let (_, c) ← c.add j.stop j
      return c) = Except.ok c' ∧ c.Adds [j] improved c' := by
  obtain ⟨insertion, c', hadd, hadded⟩ := c.add_ok hc hj
  exact ⟨_, c', by rw [hadd]; rfl, .cons hadded .nil⟩

variable {g : WeightedGrammar W} {tokens : List String}

theorem predict_ok {k : Nat} (symbol : String) (hc : c.Valid) (hk : k < c.states.size) :
    ∃ improved c', predict g k symbol c = .ok c' ∧
      c.Adds ((g.alternatives symbol).map (.predicted k)) improved c' := by
  unfold predict
  induction g.alternatives symbol generalizing c with
  | nil => exact ⟨[], c, rfl, .nil⟩
  | cons r rs ih =>
    obtain ⟨insertion, c', hadd, hadded⟩ := c.add_ok (j := .predicted k r) hc hk
    obtain ⟨improved, c'', hfold, hadds⟩ := ih (hadded.valid hc hk) (hadded.size_states.symm ▸ hk)
    refine ⟨_, c'', ?_, .cons hadded hadds⟩
    simp only [Item.predicted] at hadd
    rw [List.foldlM_cons, hadd]
    exact hfold

theorem scan_ok {p : Production} (hc : c.Valid) (hsize : c.states.size = tokens.length + 1) :
    ∃ improved c', scan g tokens i.stop i p.symbol c = .ok c' ∧
      c.Adds (scanned? g tokens i p).toList improved c' := by
  unfold scan scanned?
  cases hword : tokens[i.stop]? with
  | none => exact ⟨[], c, rfl, .nil⟩
  | some word =>
    have hlt : i.stop + 1 < c.states.size := by
      have := (List.getElem?_eq_some_iff.1 hword).1
      omega
    simp only [bind, Option.bind_some]
    split
    · cases g.wordWeight? p.symbol word with
      | none => exact ⟨[], c, rfl, .nil⟩
      | some w => exact add_one (j := .listed i.stop p.symbol word w) hc hlt
    · split
      · exact add_one (j := i.overWord) hc hlt
      · exact ⟨[], c, rfl, .nil⟩

variable [Mul W]

theorem completeOne_ok (place : Nat) {waiting : Item W} {waitingPlace : Nat} (improved : List Nat)
    (hc : c.Valid) (hstop : i.stop < c.states.size) (hw : c.items[waitingPlace]? = some waiting) :
    ∃ improved' c', completeOne i.stop place i c improved waitingPlace =
        .ok (c', improved ++ improved') ∧
      c.Adds (overItem? place i waiting).toList improved' c' := by
  unfold completeOne overItem?
  simp only [Chart.item_eq_ok_iff.2 hw, bind, Except.bind]
  cases waiting.dotted.next? with
  | none => exact ⟨[], c, by simp [pure, Except.pure], .nil⟩
  | some p =>
    simp only [Option.bind_some]
    split
    · obtain ⟨insertion, c', hadd, hadded⟩ := c.add_ok (j := waiting.overItem place i) hc hstop
      simp only [Item.overItem] at hadd
      refine ⟨_, c', ?_, .cons hadded .nil⟩
      rw [hadd]
      cases insertion <;> simp [Insertion.position?, pure, Except.pure]
    · exact ⟨[], c, by simp [pure, Except.pure], .nil⟩

/-- What waits stands in a state that completion leaves alone, so it is read as it was at
first. -/
theorem foldlM_completeOne (place : Nat) {c₀ : Chart W} {s : Array Nat} (hne : i.stop ≠ i.origin)
    (hs₀ : ∀ q ∈ s, ∃ x, c₀.items[q]? = some x ∧ x.stop = i.origin)
    (positions : List Nat) {c : Chart W} (improved : List Nat) (hc : c.Valid)
    (hstop : i.stop < c.states.size) (hs : c.states[i.origin]? = some s)
    (hsame : ∀ q ∈ s, c.items[q]? = c₀.items[q]?) :
    ∃ js improved' c', positions.foldlM (fun (c, improved) position => do
        let s ← c.state i.origin
        match s[position]? with
        | some waitingPlace => completeOne i.stop place i c improved waitingPlace
        | none => return (c, improved)) (c, improved) = Except.ok (c', improved ++ improved') ∧
      c.Adds js improved' c' ∧
      ∀ j, j ∈ js ↔ ∃ position ∈ positions, ∃ q x, s[position]? = some q ∧
        c₀.items[q]? = some x ∧ overItem? place i x = some j := by
  induction positions generalizing c improved with
  | nil => exact ⟨[], [], c, by simp [pure, Except.pure], .nil, by simp⟩
  | cons position positions ih =>
    rw [List.foldlM_cons]
    simp only [Chart.state_eq_ok_iff.2 hs, bind, Except.bind]
    cases hq : s[position]? with
    | none =>
      obtain ⟨js, improved', c', hfold, hadds, hjs⟩ := ih improved hc hstop hs hsame
      refine ⟨js, improved', c', hfold, hadds, fun j => ?_⟩
      rw [hjs]
      simp [hq]
    | some q =>
      have hmem := Array.mem_of_getElem? hq
      obtain ⟨x, hx₀, hxstop⟩ := hs₀ q hmem
      have hx : c.items[q]? = some x := (hsame q hmem).trans hx₀
      obtain ⟨improved₁, c₁, hone, hadds₁⟩ := completeOne_ok place improved hc hstop hx
      have hstops : ∀ j ∈ (overItem? place i x).toList, j.stop = i.stop := by
        intro j hj
        obtain ⟨p, -, -, rfl⟩ := overItem?_eq_some_iff.1 (Option.mem_toList.1 hj)
        rfl
      have hother : ∀ j ∈ (overItem? place i x).toList, j.stop ≠ i.origin :=
        fun j hj => hstops j hj ▸ hne
      have hs₁ : c₁.states[i.origin]? = some s := by
        obtain ⟨t, ht, hnil⟩ := hadds₁.getElem?_states hs
        rw [ht, hnil hother, Array.append_empty]
      have hsame₁ : ∀ q ∈ s, c₁.items[q]? = c₀.items[q]? := by
        intro q hq
        obtain ⟨y, hy, hystop⟩ := hs₀ q hq
        rw [hy]
        exact hadds₁.getElem?_items hother ((hsame q hq).trans hy) hystop
      have hvalid₁ := hadds₁.valid hc fun j hj => hstops j hj ▸ hstop
      obtain ⟨js, improved', c', hfold, hadds, hjs⟩ := ih (improved ++ improved₁) hvalid₁
        (hadds₁.size_states.symm ▸ hstop) hs₁ hsame₁
      refine ⟨_, _, c', ?_, hadds₁.append hadds, fun j => ?_⟩
      · simp only [hone]
        rw [← List.append_assoc]
        exact hfold
      · rw [List.mem_append, hjs]
        simp [hq, hx₀]

theorem complete_ok (hc : c.Valid) (hi : c.items[place]? = some i) (hproper : i.Proper)
    (hnext : i.dotted.next? = none) :
    ∃ js improved c', complete i.stop place i c = .ok (c', improved) ∧
      c.Adds js improved c' ∧ ∀ j, j ∈ js ↔ Infers g tokens c place i j := by
  have hlt := hproper.lt_of_next? hnext
  have hstop := hc.stop_lt hi
  unfold complete
  split
  · rename_i hgoal
    refine ⟨[], [], c, rfl, .nil, fun j => ⟨by simp, fun h => ?_⟩⟩
    cases h <;> simp_all
  · rename_i hgoal
    obtain ⟨s, hs⟩ : ∃ s, c.states[i.origin]? = some s :=
      ⟨_, Array.getElem?_eq_getElem (show i.origin < c.states.size by omega)⟩
    simp only [Chart.state_eq_ok_iff.2 hs, bind, Except.bind]
    obtain ⟨js, improved, c', hfold, hadds, hjs⟩ := foldlM_completeOne place (by omega)
      (fun q hq => (hc.mem_state_iff hs).1 hq) (List.range s.size) [] hc hstop hs fun _ _ => rfl
    refine ⟨js, improved, c', hfold, hadds, fun j => ?_⟩
    rw [hjs]
    constructor
    · rintro ⟨position, -, q, x, hq, hx, hj⟩
      obtain ⟨p, hp, hsymbol, rfl⟩ := overItem?_eq_some_iff.1 hj
      obtain ⟨x', hx', hxstop⟩ := (hc.mem_state_iff hs).1 (Array.mem_of_getElem? hq)
      obtain rfl := Option.some.inj (hx.symm.trans hx')
      exact .completed hnext (by simpa using hgoal) hx hxstop hp hsymbol
    · intro h
      cases h with
      | predicted h => simp_all
      | listed h => simp_all
      | literal h => simp_all
      | @completed q x p _ _ hx hxstop hp hsymbol =>
        obtain ⟨position, hposition, hq⟩ :=
          Array.mem_iff_getElem.1 ((hc.mem_state_iff hs).2 ⟨x, hx, hxstop⟩)
        exact ⟨position, List.mem_range.2 hposition, q, x,
          by rw [Array.getElem?_eq_getElem hposition, hq], hx,
          overItem?_eq_some_iff.2 ⟨p, hp, hsymbol, rfl⟩⟩

/-- A turn adds what follows from its item, and nothing else. It tells the positions of improved
items if its item is completed. -/
theorem process_ok (hc : c.Valid) (hsize : c.states.size = tokens.length + 1)
    (hi : c.items[place]? = some i) (hproper : i.Proper) :
    ∃ js improved c', process g tokens i.stop place c =
        .ok (c', if i.isComplete then improved else []) ∧
      c.Adds js improved c' ∧ ∀ j, j ∈ js ↔ Infers g tokens c place i j := by
  unfold process
  simp only [Chart.item_eq_ok_iff.2 hi, bind, Except.bind]
  cases hnext : i.dotted.next? with
  | none =>
    have hcomplete : i.isComplete = true := by
      rw [Item.isComplete, DottedRule.isActive_eq_false_iff.2 hnext]; rfl
    obtain ⟨js, improved, c', hok, hrest⟩ := complete_ok hc hi hproper hnext
    exact ⟨js, improved, c', by rw [if_pos hcomplete]; exact hok, hrest⟩
  | some p =>
    have hactive : i.isComplete = false := by
      rw [Item.isComplete, DottedRule.isActive_iff.2 (by rw [hnext]; rfl)]; rfl
    simp only [hactive]
    split
    · rename_i hp
      obtain ⟨improved, c', hok, hadds⟩ := scan_ok (g := g) (i := i) (p := p) hc hsize
      refine ⟨_, improved, c', by rw [hok]; rfl, hadds, fun j => ?_⟩
      rw [infers_iff_scanned hnext hp, Option.mem_toList]
    · rename_i hp
      obtain ⟨improved, c', hok, hadds⟩ := predict_ok (g := g) p.symbol hc (hc.stop_lt hi)
      refine ⟨_, improved, c', by rw [hok]; rfl, hadds, fun j => ?_⟩
      rw [infers_iff_predicted hnext hp]

end Operations

end TabularParsing.Earley
