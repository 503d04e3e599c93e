import Mathlib.Data.List.Forall2

/-!
# Steps that can fail

What is known of a chain of steps that did not fail, and of what it answered.

## Main statements

* `exists_of_bind_ok`: both steps of a chain answered.
* `foldlM_induction`: what every step keeps a run keeps.
* `foldlM_related`: two runs side by side.
* `exists_mapM_of_forall₂`: two lists side by side.
-/
namespace TabularParsing

variable {α β ε : Type}

theorem exists_of_bind_ok {x : Except ε α} {f : α → Except ε β} {b : β}
    (h : (x >>= f) = .ok b) : ∃ a, x = .ok a ∧ f a = .ok b := by
  cases x with
  | error e => cases h
  | ok a => exact ⟨a, rfl, h⟩

theorem toOption_eq_some_iff {x : Except ε α} {a : α} : x.toOption = some a ↔ x = .ok a := by
  cases x <;> simp [Except.toOption]

/-- What a list is mapped to is what its members are mapped to. -/
theorem exists_of_mem_mapM {f : α → Except ε β} {xs : List α} {ys : List β} {y : β}
    (h : xs.mapM f = .ok ys) (hy : y ∈ ys) : ∃ x ∈ xs, f x = .ok y := by
  induction xs generalizing ys with
  | nil =>
    obtain rfl := Except.ok.inj h
    cases hy
  | cons x xs ih =>
    rw [List.mapM_cons] at h
    obtain ⟨b, hb, h⟩ := exists_of_bind_ok h
    obtain ⟨bs, hbs, h⟩ := exists_of_bind_ok h
    obtain rfl := Except.ok.inj h
    rcases List.mem_cons.1 hy with rfl | hy
    · exact ⟨x, List.mem_cons_self, hb⟩
    · obtain ⟨x', hx', hfx'⟩ := ih hbs hy
      exact ⟨x', List.mem_cons_of_mem _ hx', hfx'⟩

/-- No step fails if none of them would. -/
theorem mapM_map_eq_ok {γ : Type} {f : α → β} {read : β → Except ε γ} {r : α → γ} {as : List α}
    (h : ∀ a ∈ as, read (f a) = .ok (r a)) : (as.map f).mapM read = .ok (as.map r) := by
  induction as with
  | nil => rfl
  | cons a as ih =>
    obtain ⟨ha, has⟩ := List.forall_mem_cons.1 h
    rw [List.map_cons, List.mapM_cons, ha, ih has]
    rfl

/-- What every step keeps a run keeps. -/
theorem foldlM_induction {f : β → α → Except ε β} {P : β → Prop} {xs : List α} {b b' : β}
    (hstep : ∀ x ∈ xs, ∀ {b b' : β}, P b → f b x = .ok b' → P b') (hb : P b)
    (h : xs.foldlM f b = .ok b') : P b' := by
  induction xs generalizing b with
  | nil => exact Except.ok.inj h ▸ hb
  | cons x xs ih =>
    rw [List.foldlM_cons] at h
    obtain ⟨c, hc, h⟩ := exists_of_bind_ok h
    exact ih (fun y hy => hstep y (List.mem_cons_of_mem _ hy)) (hstep x List.mem_cons_self hb hc)
      h

/-- Two runs whose steps keep their results related answer related results. -/
theorem foldlM_related {α' β' : Type} {f : β → α → Except ε β} {f' : β' → α' → Except ε β'}
    {S : α → α' → Prop} {R : β → β' → Prop} {xs : List α} {xs' : List α'} {b d : β} {b' d' : β'}
    (hxs : List.Forall₂ S xs xs')
    (hstep : ∀ {x : α} {x' : α'} {b d : β} {b' d' : β'}, S x x' → R b b' → f b x = .ok d →
      f' b' x' = .ok d' → R d d')
    (hb : R b b') (h : xs.foldlM f b = .ok d) (h' : xs'.foldlM f' b' = .ok d') : R d d' := by
  induction hxs generalizing b b' with
  | nil =>
    obtain rfl := Except.ok.inj h
    obtain rfl := Except.ok.inj h'
    exact hb
  | cons hx _ ih =>
    rw [List.foldlM_cons] at h h'
    obtain ⟨c, hc, h⟩ := exists_of_bind_ok h
    obtain ⟨c', hc', h'⟩ := exists_of_bind_ok h'
    exact ih (hstep hx hb hc hc') h h'

/-! ## Answers that may be missing -/

theorem mapM_map_eq_some {γ : Type} {f : α → β} {read? : β → Option γ} {r : α → γ} {as : List α}
    (h : ∀ a ∈ as, read? (f a) = some (r a)) : (as.map f).mapM read? = some (as.map r) := by
  induction as with
  | nil => rfl
  | cons a as ih =>
    rw [List.map_cons, List.mapM_cons, h a List.mem_cons_self,
      ih fun b hb => h b (List.mem_cons_of_mem _ hb)]
    rfl

theorem forall₂_of_mapM {f : α → Option β} {xs : List α} {ys : List β}
    (h : xs.mapM f = some ys) : List.Forall₂ (fun y x => f x = some y) ys xs := by
  induction xs generalizing ys with
  | nil =>
    obtain rfl := Option.some.inj h
    exact .nil
  | cons x xs ih =>
    rw [List.mapM_cons] at h
    obtain ⟨y, hy, h⟩ := Option.bind_eq_some_iff.1 h
    obtain ⟨rest, hrest, h⟩ := Option.bind_eq_some_iff.1 h
    obtain rfl := Option.some.inj h
    exact .cons hy (ih hrest)

theorem isSome_mapM {f : α → Option β} {xs : List α} (h : ∀ x ∈ xs, (f x).isSome = true) :
    (xs.mapM f).isSome = true := by
  induction xs with
  | nil => rfl
  | cons x xs ih =>
    obtain ⟨hx, hxs⟩ := List.forall_mem_cons.1 h
    obtain ⟨y, hy⟩ := Option.isSome_iff_exists.1 hx
    obtain ⟨ys, hys⟩ := Option.isSome_iff_exists.1 (ih hxs)
    rw [List.mapM_cons, hy, hys]
    rfl

/-- Lists that are alike item by item are read alike. -/
theorem exists_mapM_of_forall₂ {α' β' : Type} {f : α → Option β} {f' : α' → Option β'}
    {S : α → α' → Prop} {R : β → β' → Prop} {xs : List α} {xs' : List α'} {ys : List β}
    (hxs : List.Forall₂ S xs xs')
    (hread : ∀ {x : α} {x' : α'} {y : β}, S x x' → f x = some y → ∃ y', f' x' = some y' ∧ R y y')
    (h : xs.mapM f = some ys) : ∃ ys', xs'.mapM f' = some ys' ∧ List.Forall₂ R ys ys' := by
  induction hxs generalizing ys with
  | nil =>
    obtain rfl := Option.some.inj h
    exact ⟨[], rfl, .nil⟩
  | cons hx _ ih =>
    rw [List.mapM_cons] at h
    obtain ⟨y, hy, h⟩ := Option.bind_eq_some_iff.1 h
    obtain ⟨rest, hrest, h⟩ := Option.bind_eq_some_iff.1 h
    obtain rfl := Option.some.inj h
    obtain ⟨y', hy', hR⟩ := hread hx hy
    obtain ⟨rest', hrest', hall⟩ := ih hrest
    refine ⟨y' :: rest', ?_, .cons hR hall⟩
    rw [List.mapM_cons, hy', hrest']
    rfl

theorem map_eq_of_forall₂ {γ : Type} {f : α → γ} {f' : β → γ} {xs : List α} {ys : List β}
    (h : List.Forall₂ (fun x y => f x = f' y) xs ys) : xs.map f = ys.map f' := by
  rwa [← List.forall₂_eq_eq_eq, List.forall₂_map_left_iff, List.forall₂_map_right_iff]

end TabularParsing
