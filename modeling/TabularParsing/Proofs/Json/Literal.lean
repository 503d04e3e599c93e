import TabularParsing.Json.Printer
import TabularParsing.Json.Reader
import TabularParsing.Proofs.Decimal.Digits

/-!
# Numbers in documents

Every finite double is written as a literal that the grammar of documents admits: digits that do
not begin with a superfluous zero, perhaps a point with digits behind it, perhaps a power of ten.
Such a literal is read as it stands, whatever follows that cannot continue it.

## Main definition

* `Json.Literal`

## Main statements

* `Json.Literal.readNumber_append`
* `Json.literal_render`
-/
namespace TabularParsing.Json

open Decimal

/-- Digits; zero alone or no zero first. -/
structure IsWhole (ds : List Char) : Prop where
  allDigits : AllDigits ds
  ne_nil : ds ≠ []
  eq_zero : ∀ cs, ds = '0' :: cs → cs = []

/-- Nothing, or a point and digits. -/
def IsFraction (cs : List Char) : Prop := cs = [] ∨ ∃ ds, cs = '.' :: ds ∧ AllDigits ds ∧ ds ≠ []

/-- Nothing, or a power of ten. -/
def IsPower (cs : List Char) : Prop :=
  cs = [] ∨ ∃ sign ds, cs = 'e' :: (sign ++ ds) ∧ (sign = [] ∨ sign = ['+'] ∨ sign = ['-']) ∧
    AllDigits ds ∧ ds ≠ []

/-- A whole part, a fraction and a power of ten. -/
inductive Magnitude : List Char → Prop where
  | intro {whole fraction power : List Char} : IsWhole whole → IsFraction fraction →
      IsPower power → Magnitude (whole ++ (fraction ++ power))

/-- A number, perhaps with a minus sign. -/
inductive Literal : List Char → Prop where
  | positive {cs : List Char} : Magnitude cs → Literal cs
  | negative {cs : List Char} : Magnitude cs → Literal ('-' :: cs)

/-! ### Reading -/

/-- No digit comes next. -/
def NoDigit (rest : List Char) : Prop := ∀ c ∈ rest.head?, isDigit c = false

/-- What comes next does not continue a number. -/
def EndsNumber (rest : List Char) : Prop :=
  ∀ c ∈ rest.head?, isDigit c = false ∧ c ≠ '.' ∧ c ≠ 'e' ∧ c ≠ 'E'

theorem EndsNumber.noDigit {rest : List Char} (h : EndsNumber rest) : NoDigit rest :=
  fun c hc => (h c hc).1

theorem spanDigits_append {ds rest : List Char} (hds : AllDigits ds) (hrest : NoDigit rest) :
    spanDigits (ds ++ rest) = (ds, rest) := by
  have htake : rest.takeWhile isDigit = [] ∧ rest.dropWhile isDigit = rest := by
    cases rest with
    | nil => exact ⟨rfl, rfl⟩
    | cons c cs => simp [hrest c rfl]
  rw [spanDigits, List.takeWhile_append_of_pos hds, List.dropWhile_append_of_pos hds, htake.1,
    htake.2, List.append_nil]

theorem readWhole_append {ds rest : List Char} (h : IsWhole ds) (hrest : NoDigit rest) :
    readWhole (ds ++ rest) = some (ds, rest) := by
  rw [readWhole, spanDigits_append h.allDigits hrest]
  split
  · rename_i heq
    exact absurd (Prod.mk.inj heq).1 h.ne_nil
  · rename_i heq
    cases h.eq_zero _ (Prod.mk.inj heq).1
  · rfl

theorem readFraction_append {fraction rest : List Char} (h : IsFraction fraction)
    (hpoint : ∀ c ∈ rest.head?, c ≠ '.') (hrest : NoDigit rest) :
    readFraction (fraction ++ rest) = some (fraction, rest) := by
  rcases h with rfl | ⟨ds, rfl, hds, hne⟩
  · rw [List.nil_append]
    unfold readFraction
    split
    · exact absurd rfl (hpoint _ rfl)
    · rfl
  · rw [List.cons_append, readFraction, spanDigits_append hds hrest]
    split
    · rename_i heq
      exact absurd (Prod.mk.inj heq).1 hne
    · rename_i heq
      obtain ⟨rfl, rfl⟩ := Prod.mk.inj heq
      rfl

theorem readExponent_append {power rest : List Char} (h : IsPower power)
    (hletter : ∀ c ∈ rest.head?, c ≠ 'e' ∧ c ≠ 'E') (hrest : NoDigit rest) :
    readExponent (power ++ rest) = some (power, rest) := by
  rcases h with rfl | ⟨sign, ds, rfl, hsign, hds, hne⟩
  · cases rest with
    | nil => rfl
    | cons c cs =>
      have hc := hletter c rfl
      simp [readExponent, hc]
  · obtain ⟨d, ds, rfl⟩ := List.exists_cons_of_ne_nil hne
    have hd := hds d List.mem_cons_self
    have hplus : d ≠ '+' := by rintro rfl; cases hd
    have hminus : d ≠ '-' := by rintro rfl; cases hd
    have hspan := spanDigits_append hds hrest
    rw [List.cons_append] at hspan
    rcases hsign with rfl | rfl | rfl <;> simp [readExponent, hspan, hplus, hminus]

/-- A number without a sign begins with a digit. -/
theorem Magnitude.exists_cons {cs : List Char} (h : Magnitude cs) :
    ∃ d ds, cs = d :: ds ∧ isDigit d = true := by
  obtain ⟨hwhole, -, -⟩ := h
  obtain ⟨d, ds, rfl⟩ := List.exists_cons_of_ne_nil hwhole.ne_nil
  exact ⟨d, _, rfl, hwhole.allDigits d List.mem_cons_self⟩

/-- A literal begins with a digit or a minus sign. -/
theorem Literal.exists_cons {literal : List Char} (h : Literal literal) :
    ∃ c cs, literal = c :: cs ∧ ∀ d, isDigit d = false → d ≠ '-' → c ≠ d := by
  cases h with
  | positive h =>
    obtain ⟨c, cs, rfl, hc⟩ := h.exists_cons
    exact ⟨c, cs, rfl, fun d hd _ => by grind⟩
  | negative h => exact ⟨'-', _, rfl, fun d _ hd => hd.symm⟩

/-- What stands behind the sign is read as it stands. -/
theorem Magnitude.read_append {cs rest : List Char} (h : Magnitude cs) (hrest : EndsNumber rest)
    (sign : List Char) :
    (do
      let (whole, cs) ← readWhole (cs ++ rest)
      let (fraction, cs) ← readFraction cs
      let (power, cs) ← readExponent cs
      return (Json.number (sign ++ whole ++ fraction ++ power), cs)) =
      some (.number (sign ++ cs), rest) := by
  obtain ⟨hwhole, hfraction, hpower⟩ := h
  rename_i whole fraction power
  have hpowerHead : ∀ c ∈ (power ++ rest).head?, isDigit c = false ∧ c ≠ '.' := by
    rcases hpower with rfl | ⟨_, _, rfl, -⟩
    · exact fun c hc => ⟨(hrest c hc).1, (hrest c hc).2.1⟩
    · rintro c ⟨⟩
      decide
  have hfractionHead : NoDigit (fraction ++ (power ++ rest)) := by
    rcases hfraction with rfl | ⟨_, rfl, -⟩
    · exact fun c hc => (hpowerHead c hc).1
    · rintro c ⟨⟩
      decide
  simp [readWhole_append hwhole hfractionHead,
    readFraction_append hfraction (fun c hc => (hpowerHead c hc).2) fun c hc => (hpowerHead c hc).1,
    readExponent_append hpower (fun c hc => (hrest c hc).2.2) hrest.noDigit]

/-- A literal is read as it stands. -/
theorem Literal.readNumber_append {literal rest : List Char} (h : Literal literal)
    (hrest : EndsNumber rest) : readNumber (literal ++ rest) = some (.number literal, rest) := by
  cases h with
  | negative h => exact h.read_append hrest ['-']
  | positive h =>
    obtain ⟨d, ds, rfl, hd⟩ := h.exists_cons
    have hminus : d ≠ '-' := by rintro rfl; cases hd
    have hread := h.read_append hrest []
    simpa [readNumber, hminus] using hread

/-! ### Writing -/

theorem isWhole_zero : IsWhole ['0'] := by
  exact ⟨allDigits_zeros 1, by decide, fun cs h => (List.cons.inj h).2.symm⟩

/-- The digits of a number, with zeros behind them. -/
theorem isWhole_digitChars_append_zeros {n : Nat} (hn : n ≠ 0) (k : Nat) :
    IsWhole (digitChars n ++ zeros k) := by
  obtain ⟨c, cs, hcs, hc⟩ := exists_digitChars_eq hn
  refine ⟨(allDigits_digitChars n).append (allDigits_zeros k), ?_, fun ds hds => ?_⟩
  · simp [digitChars_ne_nil]
  · rw [hcs, List.cons_append] at hds
    exact absurd (List.cons.inj hds).1 hc

theorem isWhole_take {n k : Nat} (hn : n ≠ 0) (hk : k ≠ 0) : IsWhole ((digitChars n).take k) := by
  obtain ⟨c, cs, hcs, hc⟩ := exists_digitChars_eq hn
  obtain ⟨k, rfl⟩ := Nat.exists_eq_succ_of_ne_zero hk
  refine ⟨(allDigits_digitChars n).take _, ?_, fun ds hds => ?_⟩
  · simp [hcs]
  · rw [hcs, List.take_succ_cons] at hds
    exact absurd (List.cons.inj hds).1 hc

theorem isFraction_cons {ds : List Char} (hds : AllDigits ds) (hne : ds ≠ []) :
    IsFraction ('.' :: ds) := .inr ⟨ds, rfl, hds, hne⟩

theorem isFraction_zero : IsFraction ['.', '0'] := isFraction_cons (allDigits_zeros 1) (by decide)

theorem magnitude_layPositional {d : Scaled} (h : d.digits ≠ 0) :
    Magnitude (numberStyle.layPositional d) := by
  have hpower : IsPower [] := .inl rfl
  simp only [Style.layPositional]
  split
  · have hmagnitude := Magnitude.intro (isWhole_digitChars_append_zeros h d.exponent.toNat)
      isFraction_zero hpower
    simpa [numberStyle] using hmagnitude
  · split
    · rename_i hexponent hpoint
      have hwhole := isWhole_take h
        (show ((digitChars d.digits).length + d.exponent).toNat ≠ 0 by omega)
      have hne : (digitChars d.digits).drop ((digitChars d.digits).length + d.exponent).toNat ≠ [] := by
        simp
        omega
      have hmagnitude :=
        Magnitude.intro hwhole (isFraction_cons ((allDigits_digitChars _).drop _) hne) hpower
      simpa using hmagnitude
    · have hne : zeros (-((digitChars d.digits).length + d.exponent)).toNat ++
          digitChars d.digits ≠ [] := by
        simp [digitChars_ne_nil]
      have hmagnitude := Magnitude.intro isWhole_zero
        (isFraction_cons ((allDigits_zeros _).append (allDigits_digitChars _)) hne) hpower
      simpa using hmagnitude

theorem magnitude_layScientific {d : Scaled} (h : d.digits ≠ 0) :
    Magnitude (numberStyle.layScientific d) := by
  have hwhole := isWhole_take h (k := 1) (by decide)
  have hfraction : IsFraction (if (digitChars d.digits).length ≤ 1 then []
      else '.' :: (digitChars d.digits).drop 1) := by
    split
    · exact .inl rfl
    · exact isFraction_cons ((allDigits_digitChars _).drop 1) (List.ne_nil_of_length_pos (by grind))
  have hpower : IsPower ('e' ::
      ((if ((digitChars d.digits).length + d.exponent - 1 : Int) < 0 then ['-'] else ['+']) ++
        digitChars ((digitChars d.digits).length + d.exponent - 1 : Int).natAbs)) := by
    refine .inr ⟨_, _, rfl, ?_, allDigits_digitChars _, digitChars_ne_nil _⟩
    split
    · exact .inr (.inr rfl)
    · exact .inr (.inl rfl)
  have hmagnitude := Magnitude.intro hwhole hfraction hpower
  simpa [Style.layScientific, numberStyle] using hmagnitude

theorem magnitude_lay (d : Scaled) : Magnitude (numberStyle.lay d) := by
  rw [Style.lay]
  split
  · exact .intro isWhole_zero isFraction_zero (.inl rfl)
  · rename_i h
    split
    · exact magnitude_layPositional h
    · exact magnitude_layScientific h

theorem not_special_of_isFinite {x : Float} (hx : x.isFinite = true) :
    x.isNaN = false ∧ x.isInf = false := by
  have hmodel : x.toModel.unpack.isFinite = true := hx
  change x.toModel.unpack.isNaN = false ∧ x.toModel.unpack.isInf = false
  cases h : x.toModel.unpack <;> rw [h] at hmodel <;> first | exact ⟨rfl, rfl⟩ | cases hmodel

/-- A finite double is written as a literal. -/
theorem literal_render {x : Float} (hx : x.isFinite = true) :
    Literal (numberStyle.render x).toList := by
  obtain ⟨hnan, hinf⟩ := not_special_of_isFinite hx
  rw [Style.render, hnan, hinf]
  simp only [Bool.false_eq_true, if_false, String.toList_ofList]
  split
  · exact .negative (magnitude_lay _)
  · exact .positive (magnitude_lay _)

end TabularParsing.Json
