import Mathlib.Data.Set.Card
import TabularParsing.Proofs.Earley.Saturation
import TabularParsing.Proofs.Earley.Universe

/-!
# Parses end

With weights between zero and one a parse ends. An item is replaced by heavier ones only, so no
weight is earned by way of an item with the same edge: products never exceed their factors. The
weight of an item is therefore a product of base weights whose depth is bounded by the number of
edges, and of such products there are finitely many. Whatever a turn adds makes the chart hold one
more pair of an edge and such a weight, or else nothing at all.

## Main definitions

* `Earned`: a weight with the edges by way of which it was earned.
* `potential`: how many pairs of an edge and a weight a chart does not hold.

## Main statement

* `fillChart_ne_outOfSteps`
-/
namespace TabularParsing.Earley

variable {W : Type} [Mul W]

/-- The products of these weights of at most this depth. -/
def products (base : Set W) : Nat → Set W
  | 0 => ∅
  | n + 1 => base ∪ products base n ∪ Set.image2 (· * ·) (products base n) (products base n)

theorem finite_products {base : Set W} (h : base.Finite) (n : Nat) : (products base n).Finite := by
  induction n with
  | zero => exact Set.finite_empty
  | succ n ih => exact (h.union ih).union (ih.image2 _ ih)

/-- A weight that the chart holds at an edge, earned without meeting an edge twice on the way, and
only edges of the given set: a base weight, the weight of another edge, or a product. -/
inductive Earned [LE W] (base : Set W) (c : Chart W) : Finset Edge → Edge → W → Prop where
  | base {edges : Finset Edge} {e : Edge} {w : W} : e ∈ edges →
      c.Holds (fun x y => x ≤ y) e w → w ∈ base → Earned base c edges e w
  | carried {edges : Finset Edge} {e e' : Edge} {w : W} : e ∈ edges →
      c.Holds (fun x y => x ≤ y) e w → Earned base c (edges.erase e) e' w →
      Earned base c edges e w
  | product {edges : Finset Edge} {e e' e'' : Edge} {x y : W} : e ∈ edges →
      c.Holds (fun x y => x ≤ y) e (x * y) → Earned base c (edges.erase e) e' x →
      Earned base c (edges.erase e) e'' y → Earned base c edges e (x * y)

/-- A weight earned by way of so many edges is a product of at most that depth. -/
theorem Earned.mem_products [LE W] {base : Set W} {c : Chart W} {edges : Finset Edge} {e : Edge}
    {w : W} (h : Earned base c edges e w) : w ∈ products base edges.card := by
  induction h with
  | base he _ hw =>
    rw [← Finset.card_erase_add_one he]
    exact .inl (.inl hw)
  | carried he _ _ ih =>
    rw [← Finset.card_erase_add_one he]
    exact .inl (.inr ih)
  | product he _ _ _ ih ih' =>
    rw [← Finset.card_erase_add_one he]
    exact .inr (Set.mem_image2_of_mem ih ih')

/-- A weight that can be earned at an edge that is not among those used so far. -/
inductive Backed [LE W] (base : Set W) (c : Chart W) (edges : Finset Edge) : W → Prop where
  | base {w : W} : w ∈ base → Backed base c edges w
  | carried {e : Edge} {w : W} : Earned base c edges e w → Backed base c edges w
  | product {e e' : Edge} {x y : W} : Earned base c edges e x → Earned base c edges e' y →
      Backed base c edges (x * y)

variable [Zero W] [One W] [LE W] [LT W] {base : Set W} {c c' : Chart W} {edges : Finset Edge}

/-- What is held goes on to be held. -/
def Chart.Keeps (c c' : Chart W) : Prop :=
  ∀ ⦃e : Edge⦄ ⦃w : W⦄, InUnit w → c.Holds (fun x y => x ≤ y) e w →
    c'.Holds (fun x y => x ≤ y) e w

section Unit

variable (hu : UnitProducts W) (hbase : ∀ w ∈ base, InUnit w)

include hu hbase

theorem Earned.inUnit {e : Edge} {w : W} (h : Earned base c edges e w) : InUnit w := by
  induction h with
  | base _ _ hw => exact hbase _ hw
  | carried _ _ _ ih => exact ih
  | product _ _ _ _ ih ih' => exact hu.inUnit_mul ih ih'

theorem inUnit_products {n : Nat} {w : W} (h : w ∈ products base n) : InUnit w := by
  induction n generalizing w with
  | zero => cases h
  | succ n ih =>
    rcases h with (h | h) | ⟨x, hx, y, hy, rfl⟩
    · exact hbase w h
    · exact ih h
    · exact hu.inUnit_mul (ih hx) (ih hy)

theorem Earned.keeps (hkeeps : c.Keeps c') {e : Edge} {w : W} (h : Earned base c edges e w) :
    Earned base c' edges e w := by
  induction h with
  | base he hold hw => exact .base he (hkeeps (hbase _ hw) hold) hw
  | carried he hold h ih => exact .carried he (hkeeps (h.inUnit hu hbase) hold) ih
  | product he hold h h' ih ih' =>
    exact .product he (hkeeps (hu.inUnit_mul (h.inUnit hu hbase) (h'.inUnit hu hbase)) hold) ih ih'

/-- An edge at which the chart does not hold so much was not met on the way to as much. -/
theorem Earned.erase (hc : c.All fun i => InUnit i.weight) {e₀ e : Edge} {w₀ w : W}
    (hw₀ : InUnit w₀) (hnot : ¬c.Holds (fun x y => x ≤ y) e₀ w₀)
    (h : Earned base c edges e w) (hle : w₀ ≤ w) : Earned base c (edges.erase e₀) e w := by
  have hne {e : Edge} {w : W} (hw : InUnit w) (hle : w₀ ≤ w)
      (hold : c.Holds (fun x y => x ≤ y) e w) : e ≠ e₀ := by
    rintro rfl
    exact hnot (hold.trans hu.ranking hc hw₀ hw hle)
  induction h with
  | base he hold hw =>
    exact .base (Finset.mem_erase.2 ⟨hne (hbase _ hw) hle hold, he⟩) hold hw
  | carried he hold h ih =>
    have h' := ih hle
    rw [Finset.erase_right_comm] at h'
    exact .carried (Finset.mem_erase.2 ⟨hne (h.inUnit hu hbase) hle hold, he⟩) hold h'
  | product he hold h h' ih ih' =>
    have hx := h.inUnit hu hbase
    have hy := h'.inUnit hu hbase
    have hxy := hu.inUnit_mul hx hy
    have hfirst := ih (hu.total.trans hw₀ hxy hx hle (hu.mul_le_left hx hy))
    have hsecond := ih' (hu.total.trans hw₀ hxy hy hle (hu.mul_le_right hx hy))
    rw [Finset.erase_right_comm] at hfirst hsecond
    exact .product (Finset.mem_erase.2 ⟨hne hxy hle hold, he⟩) hold hfirst hsecond

theorem Backed.keeps (hkeeps : c.Keeps c') {w : W} (h : Backed base c edges w) :
    Backed base c' edges w := by
  cases h with
  | base hw => exact .base hw
  | carried h => exact .carried (h.keeps hu hbase hkeeps)
  | product h h' => exact .product (h.keeps hu hbase hkeeps) (h'.keeps hu hbase hkeeps)

/-- A weight that is new at an edge is earned there once the chart holds it. -/
theorem Backed.earned (hc : c.All fun i => InUnit i.weight) {e : Edge} {w : W} (he : e ∈ edges)
    (hnot : ¬c.Holds (fun x y => x ≤ y) e w) (hkeeps : c.Keeps c')
    (hold : c'.Holds (fun x y => x ≤ y) e w) (h : Backed base c edges w) :
    Earned base c' edges e w := by
  cases h with
  | base hw => exact .base he hold hw
  | carried h =>
    have hw := h.inUnit hu hbase
    exact .carried he hold ((h.erase hu hbase hc hw hnot (hu.total.refl hw)).keeps hu hbase hkeeps)
  | product h h' =>
    have hx := h.inUnit hu hbase
    have hy := h'.inUnit hu hbase
    have hxy := hu.inUnit_mul hx hy
    exact .product he hold
      ((h.erase hu hbase hc hxy hnot (hu.mul_le_left hx hy)).keeps hu hbase hkeeps)
      ((h'.erase hu hbase hc hxy hnot (hu.mul_le_right hx hy)).keeps hu hbase hkeeps)

end Unit

/-! ## The potential of a chart -/

/-- How many pairs of an edge and a weight a chart does not hold. -/
noncomputable def potential (pairs : Set (Edge × W)) (c : Chart W) : Nat :=
  {p ∈ pairs | ¬c.Holds (fun x y => x ≤ y) p.1 p.2}.ncard

section Potential

variable {pairs : Set (Edge × W)} (hfin : pairs.Finite) (hpairs : ∀ p ∈ pairs, InUnit p.2)

include hfin hpairs

omit [Mul W] [LT W] in
theorem potential_lt (hkeeps : c.Keeps c') {e : Edge} {w : W} (hmem : (e, w) ∈ pairs)
    (hnot : ¬c.Holds (fun x y => x ≤ y) e w) (hold : c'.Holds (fun x y => x ≤ y) e w) :
    potential pairs c' < potential pairs c := by
  refine Set.ncard_lt_ncard ?_ (hfin.subset (Set.sep_subset _ _))
  refine (Set.ssubset_iff_of_subset ?_).2 ⟨(e, w), ⟨hmem, hnot⟩, fun h => h.2 hold⟩
  rintro p ⟨hp, hnot⟩
  exact ⟨hp, fun hold => hnot (hkeeps (hpairs p hp) hold)⟩

end Potential

namespace Chart

variable {j : Item W} {insertion : Insertion}

theorem Added.keeps (hu : UnitProducts W) (hc : c.All fun i => InUnit i.weight)
    (hj : InUnit j.weight) (hadd : c.Added j insertion c') : c.Keeps c' :=
  fun _ _ hw hold => hold.added hu.ranking hc hj hw hadd

/-- An item that the chart holds already is dropped. -/
theorem Added.eq_of_holds (hu : UnitProducts W) (hvalid : c.Valid)
    (hc : c.All fun i => InUnit i.weight) (hj : InUnit j.weight)
    (hold : c.Holds (fun x y => x ≤ y) j.edge j.weight) (hadd : c.Added j insertion c') :
    c' = c ∧ insertion = .kept := by
  obtain ⟨place, i, hi, hedge, hle⟩ := hold
  cases hadd with
  | new hnew => exact absurd hedge (hnew hi)
  | improved _ _ hi' hedge' hlt =>
    obtain rfl := hvalid.apart hi hi' (hedge.trans hedge'.symm)
    obtain rfl := Option.some.inj (hi.symm.trans hi')
    exact absurd hle ((hu.total.lt_iff (hc hi) hj).1 hlt)
  | kept => exact ⟨rfl, rfl⟩

end Chart

/-- The weights of all items were earned. -/
def Traced (base : Set W) (edges : Finset Edge) (c : Chart W) : Prop :=
  c.All fun i => Earned base c edges i.edge i.weight

/-- An item that can be added to a chart whose weights were earned. -/
structure Fits (base : Set W) (edges : Finset Edge) (c : Chart W) (j : Item W) : Prop where
  edge_mem : j.edge ∈ edges
  inUnit : InUnit j.weight
  backed : Backed base c edges j.weight

theorem Fits.keeps {j : Item W} (hu : UnitProducts W) (hbase : ∀ w ∈ base, InUnit w)
    (hkeeps : c.Keeps c') (h : Fits base edges c j) : Fits base edges c' j :=
  ⟨h.edge_mem, h.inUnit, h.backed.keeps hu hbase hkeeps⟩

/-- The pairs of an edge and a weight that it could earn. -/
def pairs (base : Set W) (edges : Finset Edge) : Set (Edge × W) :=
  (edges : Set Edge) ×ˢ products base edges.card

omit [Zero W] [One W] [LE W] [LT W] in
theorem finite_pairs (hfin : base.Finite) (edges : Finset Edge) : (pairs base edges).Finite :=
  edges.finite_toSet.prod (finite_products hfin _)

namespace Chart

variable {j : Item W} {insertion : Insertion}

/-- An item that is added has earned its weight, and lets the chart hold one more pair. -/
theorem Added.traced (hu : UnitProducts W) (hbase : ∀ w ∈ base, InUnit w) (hfin : base.Finite)
    (hvalid : c.Valid) (hc : c.All fun i => InUnit i.weight) (htraced : Traced base edges c)
    (hj : Fits base edges c j) (hadd : c.Added j insertion c') :
    Traced base edges c' ∧ ∀ {k : Nat} {s s' : Array Nat}, c.states[k]? = some s →
      c'.states[k]? = some s' →
      s'.size + insertion.position?.toList.length + potential (pairs base edges) c' ≤
        s.size + potential (pairs base edges) c := by
  by_cases hold : c.Holds (fun x y => x ≤ y) j.edge j.weight
  · obtain ⟨rfl, rfl⟩ := hadd.eq_of_holds hu hvalid hc hj.inUnit hold
    refine ⟨htraced, fun hs hs' => ?_⟩
    obtain rfl := Option.some.inj (hs.symm.trans hs')
    exact Nat.le_refl _
  · have hkeeps := hadd.keeps hu hc hj.inUnit
    have hheld : c'.Holds (fun x y => x ≤ y) j.edge j.weight :=
      hadd.holds hu.ranking hc hj.inUnit
    have hearned := hj.backed.earned hu hbase hc hj.edge_mem hold hkeeps hheld
    have hlt := potential_lt (finite_pairs hfin edges)
      (fun p hp => inUnit_products hu hbase hp.2) hkeeps ⟨hj.edge_mem, hearned.mem_products⟩ hold
      hheld
    constructor
    · intro place i hi
      rcases hadd.eq_or_eq hi with hi | rfl
      · exact (htraced hi).keeps hu hbase hkeeps
      · exact hearned
    · intro k s s' hs hs'
      obtain ⟨t, ht, -, hsize⟩ := hadd.getElem?_states hs
      obtain rfl := Option.some.inj (hs'.symm.trans ht)
      rw [Array.size_append]
      omega

/-- A state grows, and items improve, by no more than what the chart holds anew. -/
theorem Adds.traced {js : List (Item W)} {improved : List Nat} (hu : UnitProducts W)
    (hbase : ∀ w ∈ base, InUnit w) (hfin : base.Finite) (hvalid : c.Valid)
    (hc : c.All fun i => InUnit i.weight) (htraced : Traced base edges c)
    (hstops : ∀ j ∈ js, j.stop < c.states.size) (hjs : ∀ j ∈ js, Fits base edges c j)
    (hadds : c.Adds js improved c') :
    Traced base edges c' ∧ ∀ {k : Nat} {s s' : Array Nat}, c.states[k]? = some s →
      c'.states[k]? = some s' →
      s'.size + improved.length + potential (pairs base edges) c' ≤
        s.size + potential (pairs base edges) c := by
  induction hadds with
  | nil =>
    refine ⟨htraced, fun hs hs' => ?_⟩
    obtain rfl := Option.some.inj (hs.symm.trans hs')
    exact Nat.le_refl _
  | @cons c c' c'' j insertion js improved hadd hadds ih =>
    have hj := hjs j List.mem_cons_self
    have hkeeps := hadd.keeps hu hc hj.inUnit
    obtain ⟨htraced', hsize⟩ := hadd.traced hu hbase hfin hvalid hc htraced hj
    obtain ⟨htraced'', hsizes⟩ := ih (hadd.valid hvalid (hstops j List.mem_cons_self))
      (hadd.all hc hj.inUnit) htraced'
      (fun i hi => hadd.size_states ▸ hstops i (List.mem_cons_of_mem _ hi))
      fun i hi => (hjs i (List.mem_cons_of_mem _ hi)).keeps hu hbase hkeeps
    refine ⟨htraced'', fun hs hs' => ?_⟩
    obtain ⟨t, ht, -⟩ := hadd.getElem?_states hs
    have h₁ := hsize hs ht
    have h₂ := hsizes ht hs'
    rw [List.length_append]
    omega

end Chart

/-! ## Reachable charts -/

variable {g : WeightedGrammar W} {tokens : List String}

/-- The edges and weights of a sentence. -/
def sentencePairs (g : WeightedGrammar W) (tokens : List String) : Set (Edge × W) :=
  pairs (baseWeights g) (Earley.edges g tokens.length)

/-- So many turns are enough for any state of a sentence. -/
noncomputable def turnBound (g : WeightedGrammar W) (tokens : List String) : Nat :=
  (sentencePairs g tokens).ncard + 1

namespace Reachable

variable (hu : UnitProducts W) (hg : g.WeightsIn fun w => InUnit w)

include hu hg

theorem fits (h : Reachable g tokens c)
    (htraced : Traced (baseWeights g) (Earley.edges g tokens.length) c) {place : Nat}
    {i j : Item W} (hi : c.items[place]? = some i) (hj : Infers g tokens c place i j) :
    Fits (baseWeights g) (Earley.edges g tokens.length) c j := by
  have hc := h.weights hu.ranking hg
  refine ⟨h.edge_mem_edges hi hj, hj.weight hu.ranking hg hc (hc hi), ?_⟩
  have hearned : Backed (baseWeights g) c (Earley.edges g tokens.length) i.weight :=
    .carried (htraced hi)
  cases hj with
  | predicted _ _ _ hrule =>
    exact .base (.inr (.inl ⟨_, WeightedGrammar.mem_allRules_iff.2 ⟨_, hrule⟩, rfl⟩))
  | listed _ _ hw => exact .base (.inr (.inr ⟨_, WeightedGrammar.mem_allWords_iff.2 hw, rfl⟩))
  | literal => exact hearned
  | completed _ _ hw _ _ _ => exact .product (htraced hi) (htraced hw)

theorem traced (h : Reachable g tokens c) :
    Traced (baseWeights g) (Earley.edges g tokens.length) c := by
  induction h with
  | initial =>
    intro place i hi
    obtain ⟨rfl, rfl⟩ := getElem?_items_initialChart.1 hi
    exact .base (goal_mem_edges g _) ⟨0, _, hi, rfl, hu.total.refl hu.inUnit_one⟩ (.inl rfl)
  | turn hreach hi hadds hjs ih =>
    exact (hadds.traced hu (fun _ hw => of_mem_baseWeights hg hu.inUnit_one hw)
      (finite_baseWeights g) hreach.valid (hreach.weights hu.ranking hg) ih
      (fun j hj => hreach.stop_lt hi ((hjs j).1 hj))
      fun j hj => hreach.fits hu hg ih hi ((hjs j).1 hj)).1

/-- Whatever a turn adds to a state or improves in it is paid for by the potential. -/
theorem turn_le (h : Reachable g tokens c) {place : Nat} {i : Item W} {js : List (Item W)}
    {improved : List Nat} (hi : c.items[place]? = some i) (hadds : c.Adds js improved c')
    (hjs : ∀ j, j ∈ js ↔ Infers g tokens c place i j) {k : Nat} {s s' : Array Nat}
    (hs : c.states[k]? = some s) (hs' : c'.states[k]? = some s') :
    s'.size + improved.length + potential (sentencePairs g tokens) c' ≤
      s.size + potential (sentencePairs g tokens) c :=
  (hadds.traced hu (fun _ hw => of_mem_baseWeights hg hu.inUnit_one hw) (finite_baseWeights g)
    h.valid (h.weights hu.ranking hg) (h.traced hu hg)
    (fun j hj => h.stop_lt hi ((hjs j).1 hj))
    fun j hj => h.fits hu hg (h.traced hu hg) hi ((hjs j).1 hj)).2 hs hs'

theorem size_add_potential_le (h : Reachable g tokens c) {k : Nat} {s : Array Nat}
    (hs : c.states[k]? = some s) :
    s.size + potential (sentencePairs g tokens) c ≤ turnBound g tokens := by
  induction h generalizing s with
  | initial =>
    have hpotential : potential (sentencePairs g tokens) (initialChart g tokens) ≤
        (sentencePairs g tokens).ncard :=
      Set.ncard_le_ncard (Set.sep_subset _ _) (finite_pairs (finite_baseWeights g) _)
    have hsize : s.size ≤ 1 := by
      rw [initialChart, Chart.getElem?_states_push] at hs
      simp only [Chart.empty, Array.getElem?_replicate] at hs
      grind
    rw [turnBound]
    omega
  | @turn c c' place i js improved hreach hi hadds hjs ih =>
    have hk : k < c.states.size := by
      rw [← hadds.size_states]
      exact (Array.getElem?_eq_some_iff.1 hs).1
    have hold := Array.getElem?_eq_getElem hk
    have h₁ := ih hold
    have h₂ := hreach.turn_le hu hg hi hadds hjs hold hs
    omega

end Reachable

/-! ## Working and filling -/

omit [Mul W] [Zero W] [One W] [LE W] [LT W] in
/-- What the agenda has left is one place less after each turn. -/
theorem Agenda.left_of_next? {a a' : Agenda} {s : Array Nat} {place : Nat}
    (h : a.next? s = some (place, a')) :
    s.size - a'.cursor + a'.requeued.length + 1 = s.size - a.cursor + a.requeued.length := by
  rcases Agenda.next?_eq_some_iff.1 h with ⟨hplace, rfl⟩ | ⟨-, rest, hrest, rfl⟩
  · have hlt := (Array.getElem?_eq_some_iff.1 hplace).1
    simp only
    omega
  · simp only [hrest, List.length_cons]
    omega

variable [DecidableLT W]

/-- A state is worked off in as many turns as the agenda and the potential tell. -/
theorem work_ne_outOfSteps (hu : UnitProducts W) (hg : g.WeightsIn fun w => InUnit w) {k n : Nat}
    {a : Agenda} {s : Array Nat} (hreach : Reachable g tokens c) (hs : c.states[k]? = some s)
    (hcovers : a.Covers (fun x y => x ≤ y) g tokens c s)
    (hn : s.size - a.cursor + a.requeued.length + potential (sentencePairs g tokens) c ≤ n) :
    work g tokens k n a c ≠ .error .outOfSteps := by
  induction n generalizing a c s with
  | zero =>
    have hend : a.next? s = none := by
      refine Agenda.next?_eq_none_iff.2 ⟨by omega, List.eq_nil_of_length_eq_zero (by omega)⟩
    unfold work
    simp [Chart.state_eq_ok_iff.2 hs, hend, bind, Except.bind, pure, Except.pure]
  | succ n ih =>
    unfold work
    simp only [Chart.state_eq_ok_iff.2 hs, bind, Except.bind]
    cases hnext : a.next? s with
    | none => simp [pure, Except.pure]
    | some next =>
      obtain ⟨place, a'⟩ := next
      obtain ⟨hplace, hcursor, -⟩ := hcovers.next hnext
      obtain ⟨i, hi, rfl⟩ := hreach.exists_item hs hplace
      obtain ⟨js, improved, c', hok, hadds, hjs, hreach'⟩ := hreach.process_ok hi
      obtain ⟨t, ht, -⟩ := hadds.getElem?_states hs
      simp only [hok, Chart.state_eq_ok_iff.2 ht]
      refine ih hreach' ht
        (hcovers.turn hu.ranking hg hreach hnext hs hi hadds hjs hreach' ht) ?_
      have hleft := Agenda.left_of_next? hnext
      have hturn := hreach.turn_le hu hg hi hadds hjs hs ht
      have hrequeue := Agenda.length_requeue_le (a := a') (s := s ++ t)
        (if i.isComplete then improved else [])
      have himproved : (if i.isComplete then improved else []).length ≤ improved.length := by
        split <;> simp
      rw [Array.size_append] at hturn ⊢
      have hcursor' : (a'.requeue (s ++ t) (if i.isComplete then improved else [])).cursor =
        a'.cursor := rfl
      omega

theorem foldlM_work_ne_outOfSteps (hu : UnitProducts W) (hg : g.WeightsIn fun w => InUnit w)
    {limit : Nat} (hlimit : turnBound g tokens ≤ limit) {k : Nat} (hk : k ≤ tokens.length + 1) :
    (List.range k).foldlM (fun c k => work g tokens k limit ⟨0, []⟩ c) (initialChart g tokens) ≠
      .error .outOfSteps := by
  induction k with
  | zero => simp [pure, Except.pure]
  | succ k ih =>
    rw [List.range_succ, List.foldlM_append]
    have hk' : k ≤ tokens.length + 1 := Nat.le_of_succ_le hk
    rcases foldlM_work_saturated limit hu.ranking hg hk' with h | ⟨c, h, hreach, -⟩
    · exact absurd h (ih hk')
    · have hs := Array.getElem?_eq_getElem (show k < c.states.size by
        rw [hreach.size_states]; omega)
      simp only [h, List.foldlM_cons, List.foldlM_nil, bind_pure]
      refine work_ne_outOfSteps hu hg hreach hs (Agenda.covers_start c _) ?_
      have hbound := hreach.size_add_potential_le hu hg hs
      simp only [List.length_nil]
      omega

/-- With weights between zero and one a parse ends. -/
theorem fillChart_ne_outOfSteps (hu : UnitProducts W) (hg : g.WeightsIn fun w => InUnit w)
    {limit : Nat} (hlimit : turnBound g tokens ≤ limit) :
    fillChart limit g tokens ≠ .error .outOfSteps :=
  foldlM_work_ne_outOfSteps hu hg hlimit (Nat.le_refl _)

end TabularParsing.Earley
