import Mathlib.Order.Lattice

/-!
# Values that compare like numbers

Weights and scores are compared by `<` and `≤`. Among the values that satisfy a predicate these are
a total order up to equal values, as they are among doubles that are numbers; outside of it nothing
is asked of them.
-/
namespace TabularParsing

variable {α : Type} [LE α] [LT α]

/-- On the values that satisfy `P` the order is transitive and total, and `<` is its strict
part. -/
structure TotalOn (P : α → Prop) : Prop where
  trans : ∀ {x y z : α}, P x → P y → P z → x ≤ y → y ≤ z → x ≤ z
  total : ∀ {x y : α}, P x → P y → x ≤ y ∨ y ≤ x
  lt_iff : ∀ {x y : α}, P x → P y → (x < y ↔ ¬y ≤ x)

namespace TotalOn

variable {P : α → Prop} {x y z : α}

theorem refl (h : TotalOn P) (hx : P x) : x ≤ x := (h.total hx hx).elim id id

theorem le_of_not_lt (h : TotalOn P) (hx : P x) (hy : P y) (hxy : ¬x < y) : y ≤ x :=
  Classical.not_not.1 fun hle => hxy ((h.lt_iff hx hy).2 hle)

theorem le_of_lt (h : TotalOn P) (hx : P x) (hy : P y) (hxy : x < y) : x ≤ y :=
  (h.total hx hy).elim id fun hle => absurd hle ((h.lt_iff hx hy).1 hxy)

theorem lt_of_le_of_lt (h : TotalOn P) (hx : P x) (hy : P y) (hz : P z) (hxy : x ≤ y)
    (hyz : y < z) : x < z :=
  (h.lt_iff hx hz).2 fun hzx => (h.lt_iff hy hz).1 hyz (h.trans hz hx hy hzx hxy)

theorem lt_of_lt_of_le (h : TotalOn P) (hx : P x) (hy : P y) (hz : P z) (hxy : x < y)
    (hyz : y ≤ z) : x < z :=
  (h.lt_iff hx hz).2 fun hzx => (h.lt_iff hx hy).1 hxy (h.trans hy hz hx hyz hzx)

theorem mono {Q : α → Prop} (h : TotalOn P) (hQ : ∀ {x : α}, Q x → P x) : TotalOn Q where
  trans hx hy hz := h.trans (hQ hx) (hQ hy) (hQ hz)
  total hx hy := h.total (hQ hx) (hQ hy)
  lt_iff hx hy := h.lt_iff (hQ hx) (hQ hy)

/-- One of finitely many values is greatest. -/
theorem exists_greatest {β : Type} {f : β → α} {bs : List β} (h : TotalOn P) (hne : bs ≠ [])
    (hbs : ∀ b ∈ bs, P (f b)) : ∃ b ∈ bs, ∀ b' ∈ bs, f b' ≤ f b := by
  induction bs with
  | nil => exact absurd rfl hne
  | cons b bs ih =>
    have hb := hbs b List.mem_cons_self
    have hrest : ∀ b' ∈ bs, P (f b') := fun b' hb' => hbs b' (List.mem_cons_of_mem _ hb')
    by_cases hnil : bs = []
    · subst hnil
      refine ⟨b, List.mem_cons_self, fun b' hb' => ?_⟩
      rw [List.mem_singleton.1 hb']
      exact h.refl hb
    · obtain ⟨m, hm, hgreatest⟩ := ih hnil hrest
      rcases h.total hb (hrest m hm) with hle | hle
      · refine ⟨m, List.mem_cons_of_mem _ hm, fun b' hb' => ?_⟩
        rcases List.mem_cons.1 hb' with rfl | hb'
        · exact hle
        · exact hgreatest b' hb'
      · refine ⟨b, List.mem_cons_self, fun b' hb' => ?_⟩
        rcases List.mem_cons.1 hb' with rfl | hb'
        · exact h.refl hb
        · exact h.trans (hrest b' hb') (hrest m hm) hb (hgreatest b' hb') hle

end TotalOn

theorem totalOn_of_linearOrder {β : Type} [LinearOrder β] (P : β → Prop) : TotalOn P where
  trans _ _ _ := le_trans
  total _ _ := le_total _ _
  lt_iff _ _ := lt_iff_not_ge

end TabularParsing
