import TabularParsing.Earley.Parse
import TabularParsing.Proofs.Earley.Reweighing

/-!
# A run that checks what it relies on

A run relies on places, positions and states being there, on dots that can move, on completed items
and on a scanned state that stays as it is. Here the same run is spelled with every one of these
checked where it is relied on. On the charts that turns lead to no check fails, so both runs are the
same, step for step.

## Main definitions

* `Breach`: a check that failed.
* `Checked.add`, `Checked.process`, `Checked.work`, `Checked.fillChart`: the steps of a run with
  their checks.
* `Checked.goals`, `Checked.tree?`: what is read off a chart, with its checks.

## Main statements

* `Checked.process_eq`: a turn with its checks is a turn.
* `Checked.fillChart_eq`: so is a whole run.
* `Checked.goals_eq`, `Checked.tree?_eq`
-/
namespace TabularParsing.Earley

/-- What a run relies on never to happen. -/
inductive Breach where
  /-- A state or an item is missing, or a dot is at its end; or the run was cut off. -/
  | fault (f : Fault)
  | missingPosition (k position : Nat)
  /-- The item to complete still awaits something. -/
  | notCompleted
  /-- A state changed its size while it was scanned. -/
  | grownState (k : Nat)
  deriving DecidableEq

variable {α β ε : Type}

/-- What can go wrong in a run can go wrong in one that is checked. -/
def lift (x : Except Fault α) : Except Breach α := x.mapError .fault

@[simp] theorem lift_ok (a : α) : lift (.ok a) = .ok a := rfl

theorem ok_bind (a : α) (f : α → Except ε β) : (Except.ok a >>= f) = f a := rfl

/-- Steps that answer alike make chains that answer alike. -/
theorem lift_bind {x : Except Fault α} {f : α → Except Fault β} {f' : α → Except Breach β}
    (h : ∀ a, x = .ok a → f' a = lift (f a)) : (lift x >>= f') = lift (x >>= f) := by
  cases x with
  | error e => rfl
  | ok a => exact h a rfl

/-- So do steps that answer alike where an invariant holds, if they keep it. -/
theorem lift_foldlM {f : β → α → Except Fault β} {f' : β → α → Except Breach β} {P : β → Prop}
    {xs : List α} {b : β} (hb : P b)
    (hstep : ∀ x ∈ xs, ∀ {b : β}, P b →
      f' b x = lift (f b x) ∧ ∀ {b' : β}, f b x = .ok b' → P b') :
    xs.foldlM f' b = lift (xs.foldlM f b) := by
  induction xs generalizing b with
  | nil => rfl
  | cons x xs ih =>
    obtain ⟨hsame, hkeeps⟩ := hstep x List.mem_cons_self hb
    rw [List.foldlM_cons, List.foldlM_cons, hsame]
    apply lift_bind
    intro b' hb'
    exact ih (hkeeps hb') fun y hy => hstep y (List.mem_cons_of_mem x hy)

namespace Checked

variable {W : Type}

/-- The place at a position of a state. -/
def placeAt (c : Chart W) (k position : Nat) : Except Breach Nat := do
  let s ← lift (c.state k)
  match s[position]? with
  | some place => return place
  | none => .error (.missingPosition k position)

/-- The dot moves over a production only if there is one behind it. -/
def advance (d : DottedRule W) : Except Breach (DottedRule W) :=
  if d.isActive then .ok d.advance else .error (.fault .dotAtEnd)

/-- The first position of an item that merges. Every item up to it is looked up. -/
def findFrom (c : Chart W) (i : Item W) : Nat → List Nat → Except Breach (Option Nat)
  | _, [] => .ok none
  | position, place :: places => do
    let other ← lift (c.item place)
    if other.merges i then return some position else findFrom c i (position + 1) places

def add [LT W] [DecidableLT W] (c : Chart W) (k : Nat) (i : Item W) :
    Except Breach (Insertion × Chart W) := do
  let s ← lift (c.state k)
  match ← findFrom c i 0 s.toList with
  | none => return (.new, c.push k i)
  | some position =>
    let place ← placeAt c k position
    let old ← lift (c.item place)
    if old.weight < i.weight then
      return (.improved position, ⟨c.items.setIfInBounds place i, c.states⟩)
    else return (.kept, c)

variable [Mul W] [LT W] [DecidableLT W]

def predict (g : WeightedGrammar W) (k : Nat) (symbol : String) (c : Chart W) :
    Except Breach (Chart W) :=
  (g.alternatives symbol).foldlM (fun c r => do
    let (_, c) ← add c k ⟨.ofRule r, k, k, .prediction, [], r.weight, false⟩
    return c) c

def scan (g : WeightedGrammar W) (tokens : List String) (k : Nat) (i : Item W) (needed : String)
    (c : Chart W) : Except Breach (Chart W) :=
  match tokens[k]? with
  | none => .ok c
  | some word =>
    if g.isCategory needed then
      match g.wordWeight? needed word with
      | none => .ok c
      | some w => do
        let d ← advance (.ofRule ⟨needed, [.terminal word], w⟩)
        let (_, c) ← add c (k + 1) ⟨d, k, k + 1, .scan, [], w, false⟩
        return c
    else if needed = word then do
      let d ← advance i.dotted
      let (_, c) ← add c (k + 1) ⟨d, i.origin, k + 1, .scan, i.children, i.weight, i.forGoal⟩
      return c
    else .ok c

def completeOne (k place : Nat) (done : Item W) (c : Chart W) (improved : List Nat)
    (waitingPlace : Nat) : Except Breach (Chart W × List Nat) := do
  let waiting ← lift (c.item waitingPlace)
  match waiting.dotted.next? with
  | none => return (c, improved)
  | some p =>
    if p.symbol = done.symbol then
      let d ← advance waiting.dotted
      let (insertion, c) ← add c k ⟨d, waiting.origin, k, .completion, waiting.children ++ [place],
        done.weight * waiting.weight, waiting.forGoal⟩
      match insertion with
      | .improved position => return (c, improved ++ [position])
      | _ => return (c, improved)
    else return (c, improved)

/-- Only a completed item is completed, and the state that is scanned does not grow meanwhile. -/
def complete (k place : Nat) (done : Item W) (c : Chart W) :
    Except Breach (Chart W × List Nat) :=
  if done.isComplete then
    if done.forGoal then .ok (c, [])
    else do
      let waiting ← lift (c.state done.origin)
      (List.range waiting.size).foldlM (fun (c, improved) position => do
        let waitingPlace ← placeAt c done.origin position
        let r ← completeOne k place done c improved waitingPlace
        let s ← lift (r.1.state done.origin)
        if s.size = waiting.size then return r else .error (.grownState done.origin)) (c, [])
  else .error .notCompleted

def process (g : WeightedGrammar W) (tokens : List String) (k place : Nat) (c : Chart W) :
    Except Breach (Chart W × List Nat) := do
  let i ← lift (c.item place)
  match i.dotted.next? with
  | none => complete k place i c
  | some p =>
    if p.isTerminal || g.isCategory p.symbol then
      return (← scan g tokens k i p.symbol c, [])
    else return (← predict g k p.symbol c, [])

omit [Mul W] [LT W] [DecidableLT W] in
/-- A position that improved is looked up before it is put on top. -/
def requeue (c : Chart W) (k : Nat) (a : Agenda) (improved : List Nat) :
    Except Breach Agenda := do
  let requeued ← improved.foldlM (fun places position =>
    if position < a.cursor then do
      let place ← placeAt c k position
      return place :: places
    else return places) a.requeued
  return ⟨a.cursor, requeued⟩

def work (g : WeightedGrammar W) (tokens : List String) (k : Nat) :
    Nat → Agenda → Chart W → Except Breach (Chart W)
  | n, a, c => do
    let s ← lift (c.state k)
    match a.next? s with
    | none => return c
    | some (place, a) =>
      match n with
      | 0 => .error (.fault .outOfSteps)
      | n + 1 => do
        let (c, improved) ← process g tokens k place c
        let a ← requeue c k a improved
        work g tokens k n a c

def fillChart [One W] (limit : Nat) (g : WeightedGrammar W) (tokens : List String) :
    Except Breach (Chart W) := do
  let (_, c) ← add (Chart.empty (tokens.length + 1)) 0 (.goal g)
  (List.range (tokens.length + 1)).foldlM (fun c k => work g tokens k limit ⟨0, []⟩ c) c

omit [Mul W] [LT W] [DecidableLT W] in
/-- Every item of the last state is looked up. A parser that has parsed nothing has no state. -/
def goals (p : Parse W) : Except Breach (List Nat) :=
  if p.chart.states.isEmpty then .ok []
  else do
    let s ← lift (p.chart.state p.length)
    let items ← s.toList.mapM fun place => do
      let i ← lift (p.chart.item place)
      return (place, i)
    return (items.filter fun e => Parse.isGoal e.2).map Prod.fst

omit [Mul W] [LT W] [DecidableLT W] in
def tree? (p : Parse W) : Except Breach (Option (Tree W)) := do
  match ← goals p with
  | [] => return none
  | place :: _ =>
    let goal ← lift (p.chart.item place)
    match goal.children with
    | [] => return none
    | top :: _ =>
      let t ← lift (p.chart.tree p.grammar top)
      return some t

/-! ## Adding items -/

section Add

variable {c : Chart W} {i j : Item W} {k position place : Nat} {s : Array Nat}

omit [Mul W] [LT W] [DecidableLT W] in
theorem placeAt_eq (hs : c.states[k]? = some s) (hplace : s[position]? = some place) :
    placeAt c k position = .ok place := by
  simp only [placeAt, Chart.state_eq_ok_iff.2 hs, lift_ok, hplace, ok_bind, pure,
    Except.pure]

omit [Mul W] [LT W] [DecidableLT W] in
theorem advance_eq {d : DottedRule W} {p : Production} (h : d.next? = some p) :
    advance d = .ok d.advance := by
  have hactive : d.isActive = true := DottedRule.isActive_iff.2 (by rw [h]; rfl)
  rw [advance, if_pos hactive]

omit [Mul W] [LT W] [DecidableLT W] in
theorem findFrom_eq {places : List Nat} (h : ∀ q ∈ places, ∃ x, c.items[q]? = some x)
    (position : Nat) : findFrom c i position places =
      .ok ((places.findIdx? fun q => c.items[q]?.any fun x => x.merges i).map (· + position)) := by
  induction places generalizing position with
  | nil => rfl
  | cons q places ih =>
    obtain ⟨⟨x, hx⟩, hplaces⟩ := List.forall_mem_cons.1 h
    simp only [findFrom, Chart.item_eq_ok_iff.2 hx, lift_ok, ok_bind,
      List.findIdx?_cons, hx, Option.any_some]
    split
    · simp [pure, Except.pure]
    · rw [ih hplaces, Option.map_map]
      congr 2
      funext n
      simp only [Function.comp_apply]
      omega

omit [Mul W] in
/-- In a valid chart the places of a state are there. -/
theorem add_eq (hc : c.Valid) (hk : k < c.states.size) : add c k j = lift (c.add k j) := by
  have hs := Array.getElem?_eq_getElem hk
  have hfind : findFrom c j 0 c.states[k].toList = .ok (c.find? c.states[k] j) := by
    rw [findFrom_eq fun q hq => ?_]
    · simp [Chart.find?, ← List.findIdx?_toArray]
    · obtain ⟨x, hx, -⟩ := (hc.mem_state_iff hs).1 (Array.mem_toList_iff.1 hq)
      exact ⟨x, hx⟩
  simp only [add, Chart.add, Chart.state_eq_ok_iff.2 hs, lift_ok, hfind, ok_bind]
  cases hposition : c.find? c.states[k] j with
  | none => rfl
  | some position =>
    obtain ⟨place, x, hplace, hx, -⟩ := Chart.exists_of_find? hposition
    simp only [placeAt_eq hs hplace, hplace, Option.getD_some, Chart.item_eq_ok_iff.2 hx, lift_ok,
      ok_bind]
    split <;> rfl

end Add

/-! ## One turn -/

section Operations

variable {g : WeightedGrammar W} {tokens : List String} {c : Chart W} {i : Item W}
variable {k place : Nat}

omit [Mul W] in
theorem predict_eq (symbol : String) (hc : c.Valid) (hk : k < c.states.size) :
    predict g k symbol c = lift (Earley.predict g k symbol c) := by
  refine lift_foldlM (P := fun c => c.Valid ∧ k < c.states.size) ⟨hc, hk⟩ ?_
  rintro r - c ⟨hc, hk⟩
  obtain ⟨insertion, c', hadd, hadded⟩ := c.add_ok (j := .predicted k r) hc hk
  simp only [Item.predicted] at hadd
  refine ⟨?_, ?_⟩
  · simp only [add_eq hc hk, hadd, lift_ok, ok_bind, pure, Except.pure]
  · intro b hb
    simp only [hadd, ok_bind, pure, Except.pure] at hb
    obtain rfl := Except.ok.inj hb
    exact ⟨hadded.valid hc hk, hadded.size_states.symm ▸ hk⟩

omit [Mul W] in
/-- A word is only scanned if there is one, and then there is a state behind it. -/
theorem scan_eq {p : Production} (hc : c.Valid) (hsize : c.states.size = tokens.length + 1)
    (hnext : i.dotted.next? = some p) :
    scan g tokens k i p.symbol c = lift (Earley.scan g tokens k i p.symbol c) := by
  unfold scan Earley.scan
  cases hword : tokens[k]? with
  | none => rfl
  | some word =>
    have hlt : k + 1 < c.states.size := by
      have := (List.getElem?_eq_some_iff.1 hword).1
      omega
    simp only
    split
    · cases g.wordWeight? p.symbol word with
      | none => rfl
      | some w =>
        have hadvance : advance (.ofRule (⟨p.symbol, [.terminal word], w⟩ : WeightedRule W)) =
            .ok _ := advance_eq (p := .terminal word) rfl
        simp only [hadvance, add_eq hc hlt, ok_bind]
        exact lift_bind fun _ _ => rfl
    · split
      · simp only [advance_eq hnext, add_eq hc hlt, ok_bind]
        exact lift_bind fun _ _ => rfl
      · rfl

theorem completeOne_eq {done waiting : Item W} {waitingPlace : Nat} (improved : List Nat)
    (hc : c.Valid) (hk : k < c.states.size) (hw : c.items[waitingPlace]? = some waiting) :
    completeOne k place done c improved waitingPlace =
      lift (Earley.completeOne k place done c improved waitingPlace) := by
  simp only [completeOne, Earley.completeOne, Chart.item_eq_ok_iff.2 hw, lift_ok, ok_bind]
  cases hnext : waiting.dotted.next? with
  | none => rfl
  | some p =>
    simp only
    split
    · simp only [advance_eq hnext, add_eq hc hk, ok_bind]
      refine lift_bind fun r _ => ?_
      obtain ⟨insertion, c'⟩ := r
      cases insertion <;> rfl
    · rfl

/-- What waits stands in an earlier state, which does not change while it is scanned. -/
theorem complete_eq (hc : c.Valid) (hi : c.items[place]? = some i) (hproper : i.Proper)
    (hnext : i.dotted.next? = none) :
    complete i.stop place i c = lift (Earley.complete i.stop place i c) := by
  have hcompleted : i.isComplete = true := by
    rw [Item.isComplete, DottedRule.isActive_eq_false_iff.2 hnext]
    rfl
  have hlt := hproper.lt_of_next? hnext
  have hstop := hc.stop_lt hi
  rw [complete, if_pos hcompleted, Earley.complete]
  split
  · rfl
  · have hs := Array.getElem?_eq_getElem (show i.origin < c.states.size by omega)
    generalize c.states[i.origin] = s at hs
    simp only [Chart.state_eq_ok_iff.2 hs, lift_ok, ok_bind]
    refine lift_foldlM (P := fun r : Chart W × List Nat => r.1.Valid ∧
      i.stop < r.1.states.size ∧ r.1.states[i.origin]? = some s) ⟨hc, hstop, hs⟩ ?_
    rintro position hposition ⟨c, improved⟩ ⟨hc, hstop, hs⟩
    obtain ⟨q, hq⟩ : ∃ q, s[position]? = some q :=
      ⟨_, Array.getElem?_eq_getElem (List.mem_range.1 hposition)⟩
    obtain ⟨x, hx, hxstop⟩ := (hc.mem_state_iff hs).1 (Array.mem_of_getElem? hq)
    obtain ⟨improved', c', hone, hadds⟩ := completeOne_ok place improved hc hstop hx
    have hstops : ∀ j ∈ (overItem? place i x).toList, j.stop = i.stop := by
      intro j hj
      obtain ⟨p, -, -, rfl⟩ := overItem?_eq_some_iff.1 (Option.mem_toList.1 hj)
      rfl
    obtain ⟨t, ht, hnil⟩ := hadds.getElem?_states hs
    rw [hnil fun j hj => by rw [hstops j hj]; omega, Array.append_empty] at ht
    refine ⟨?_, ?_⟩
    · simp only [placeAt_eq hs hq, Chart.state_eq_ok_iff.2 hs, hq,
        completeOne_eq improved hc hstop hx, hone, lift_ok, Chart.state_eq_ok_iff.2 ht, ok_bind]
      exact if_pos trivial
    · intro r hr
      simp only [Chart.state_eq_ok_iff.2 hs, hq, hone, ok_bind] at hr
      obtain rfl := Except.ok.inj hr
      exact ⟨hadds.valid hc fun j hj => (hstops j hj).symm ▸ hstop,
        hadds.size_states.symm ▸ hstop, ht⟩

/-- A turn with its checks is a turn. -/
theorem process_eq (hc : c.Valid) (hsize : c.states.size = tokens.length + 1)
    (hi : c.items[place]? = some i) (hproper : i.Proper) :
    process g tokens i.stop place c = lift (Earley.process g tokens i.stop place c) := by
  simp only [process, Earley.process, Chart.item_eq_ok_iff.2 hi, lift_ok, ok_bind]
  cases hnext : i.dotted.next? with
  | none => exact complete_eq hc hi hproper hnext
  | some p =>
    simp only
    split
    · rw [scan_eq hc hsize hnext]
      exact lift_bind fun _ _ => rfl
    · rw [predict_eq p.symbol hc (hc.stop_lt hi)]
      exact lift_bind fun _ _ => rfl

end Operations

/-! ## Turn after turn -/

section Run

variable {g : WeightedGrammar W} {tokens : List String} {c : Chart W} {k : Nat} {a : Agenda}
variable {s : Array Nat}

omit [Mul W] [LT W] [DecidableLT W] in
/-- Only positions before the cursor are looked up, and the cursor never leaves the state. -/
theorem requeue_eq (hs : c.states[k]? = some s) (hcursor : a.cursor ≤ s.size)
    (improved : List Nat) : requeue c k a improved = .ok (a.requeue s improved) := by
  have hfold (places : List Nat) : improved.foldlM (fun places position =>
      if position < a.cursor then do
        let place ← placeAt c k position
        return place :: places
      else return places) places = Except.ok (ε := Breach) (improved.foldl (fun places position =>
        if position < a.cursor then (s[position]?).toList ++ places else places) places) := by
    induction improved generalizing places with
    | nil => rfl
    | cons position improved ih =>
      rw [List.foldlM_cons, List.foldl_cons]
      split
      · have hplace := Array.getElem?_eq_getElem (show position < s.size by omega)
        rw [placeAt_eq hs hplace, hplace]
        exact ih _
      · exact ih _
  rw [requeue, hfold]
  rfl

variable [One W]

theorem work_eq {n : Nat} (h : Stage.Swept g tokens k ⟨a, c⟩) :
    work g tokens k n a c = lift (Earley.work g tokens k n a c) := by
  induction n generalizing a c with
  | zero =>
    unfold work Earley.work
    refine lift_bind fun s _ => ?_
    cases a.next? s <;> rfl
  | succ n ih =>
    unfold work Earley.work
    refine lift_bind fun s hs => ?_
    cases hnext : a.next? s with
    | none => rfl
    | some next =>
      obtain ⟨place, a'⟩ := next
      have hstate := Chart.state_eq_ok_iff.1 hs
      obtain ⟨⟨position, -, hplace⟩, hcursor, -⟩ := (h.agenda hstate).next hnext
      obtain ⟨i, hi, rfl⟩ := h.reachable.exists_item hstate (Array.mem_of_getElem? hplace)
      have hproper := h.reachable.proper hi
      simp only [process_eq h.reachable.valid h.reachable.size_states hi hproper]
      refine lift_bind fun r hr => ?_
      obtain ⟨c', improved⟩ := r
      obtain ⟨js, improved', c'', hok, hadds, -⟩ := h.reachable.process_ok hi
      obtain ⟨rfl, -⟩ := Prod.mk.inj (Except.ok.inj (hr.symm.trans hok))
      obtain ⟨t, ht, -⟩ := hadds.getElem?_states hstate
      have hs' := Chart.state_eq_ok_iff.2 ht
      have hle : a'.cursor ≤ (s ++ t).size := by
        rw [Array.size_append]
        omega
      simp only [hs', requeue_eq ht hle, ok_bind]
      exact ih (Turn.swept (.take hs hnext hr hs') h)

/-- A whole run with its checks is a run, whether it ends or is cut off. -/
theorem fillChart_eq (limit : Nat) (g : WeightedGrammar W) (tokens : List String) :
    fillChart limit g tokens = lift (Earley.fillChart limit g tokens) := by
  have hstart : add (Chart.empty (tokens.length + 1)) 0 (.goal g) =
      .ok (.new, initialChart g tokens) := by
    simp [add, Chart.state, Chart.empty, findFrom, initialChart, ok_bind, pure,
      Except.pure, Item.goal]
  rw [fillChart, hstart, Earley.fillChart]
  refine lift_foldlM (P := Reachable g tokens) .initial fun k hk c hreach => ?_
  refine ⟨work_eq (Stage.swept_start hreach), fun hwork => ?_⟩
  obtain ⟨m, -, a, hturns, -⟩ := exists_turns_of_work hwork
  exact (hturns.swept (Stage.swept_start hreach)).reachable

end Run

/-! ## Answers -/

section Answers

variable {p : Parse W}

omit [Mul W] [LT W] [DecidableLT W] in
/-- Items that are in the arena are read, and the goals among them are those at their places. -/
theorem exists_mapM_item (places : List Nat)
    (hplaces : ∀ q ∈ places, ∃ i, p.chart.items[q]? = some i) :
    ∃ items : List (Nat × Item W), places.mapM (fun place => do
        let i ← lift (p.chart.item place)
        return (place, i)) = Except.ok (ε := Breach) items ∧
      (items.filter fun e => Parse.isGoal e.2).map Prod.fst =
        places.filter fun place => p.chart.items[place]?.any Parse.isGoal := by
  induction places with
  | nil => exact ⟨[], rfl, rfl⟩
  | cons q places ih =>
    obtain ⟨⟨i, hi⟩, hplaces⟩ := List.forall_mem_cons.1 hplaces
    obtain ⟨items, hitems, hfilter⟩ := ih hplaces
    refine ⟨(q, i) :: items, ?_, ?_⟩
    · rw [List.mapM_cons, Chart.item_eq_ok_iff.2 hi, hitems]
      rfl
    · rw [List.filter_cons, List.filter_cons, hi, Option.any_some]
      split
      · rw [List.map_cons, hfilter]
      · exact hfilter

omit [Mul W] [LT W] [DecidableLT W] in
theorem goals_eq (hc : p.chart.Valid) (hk : p.length < p.chart.states.size) :
    goals p = .ok p.goals := by
  have hs := Array.getElem?_eq_getElem hk
  generalize p.chart.states[p.length] = s at hs
  have hempty : p.chart.states.isEmpty = false := by
    simpa [Array.isEmpty] using (Nat.ne_of_gt (Nat.zero_lt_of_lt hk))
  obtain ⟨items, hitems, hfilter⟩ := exists_mapM_item s.toList fun q hq => by
    obtain ⟨i, hi, -⟩ := (hc.mem_state_iff hs).1 (Array.mem_toList_iff.1 hq)
    exact ⟨i, hi⟩
  rw [goals, if_neg (by simp [hempty]), Chart.state_eq_ok_iff.2 hs, lift_ok, ok_bind, hitems,
    ok_bind, hfilter, Parse.goals, hs]
  rfl

omit [Mul W] [LT W] [DecidableLT W] in
theorem tree?_eq (hc : p.chart.Valid) (hk : p.length < p.chart.states.size) :
    tree? p = lift p.tree? := by
  rw [tree?, goals_eq hc hk, ok_bind, Parse.tree?, Parse.goal?]
  cases hgoals : p.goals with
  | nil => rfl
  | cons place rest =>
    have hmem : place ∈ p.goals := hgoals ▸ List.mem_cons_self
    obtain ⟨i, hi, -⟩ := (Option.any_eq_true _ _).1 (List.mem_filter.1 hmem).2
    simp only [List.head?_cons, Option.bind_eq_bind, Option.bind_some, hi,
      Chart.item_eq_ok_iff.2 hi, lift_ok, ok_bind]
    cases i.children with
    | nil => rfl
    | cons top children =>
      simp only [List.head?_cons]
      cases p.chart.tree p.grammar top <;> rfl

end Answers

end Checked

end TabularParsing.Earley
