import TabularParsing.Proofs.Json.Literal

/-!
# JSON values are read as they were written

A value whose strings all have a text and whose numbers are literals is read back from its text
unchanged. Every level of nesting spends at most two of the reader's count, and costs at least a
bracket and a new line in the text.

## Main definition

* `Json.Printable`

## Main statements

* `Json.readString_quote`
* `Json.read?_print`
-/
namespace TabularParsing.Json

/-! ### Strings -/

/-- The number of a control character is written in four digits. -/
theorem hexFour?_control : ∀ n < 0x20, ∃ a b, Text.hexDigits (n / 16) = [a] ∧
    Text.hexDigits (n % 16) = [b] ∧ hexFour? '0' '0' a b = some n := by
  have hdigits : ∀ n < 0x20, Text.hexDigits (n / 16) = [Nat.digitChar (n / 16)] ∧
      Text.hexDigits (n % 16) = [Nat.digitChar (n % 16)] ∧
      hexFour? '0' '0' (Nat.digitChar (n / 16)) (Nat.digitChar (n % 16)) = some n := by
    decide
  exact fun n hn => ⟨_, _, hdigits n hn⟩

theorem joinPieces_char {c : Char} {ps : List Piece} {text : List Char}
    (h : joinPieces ps = some text) : joinPieces (.char c :: ps) = some (c :: text) := by
  rw [joinPieces, h]
  rfl

theorem joinPieces_control {c : Char} (hc : c.toNat < 0x20) {ps : List Piece} {text : List Char}
    (h : joinPieces ps = some text) : joinPieces (.unit c.toNat :: ps) = some (c :: text) := by
  have hhigh : isHighUnit c.toNat = false := by grind [isHighUnit]
  have hlow : isLowUnit c.toNat = false := by grind [isLowUnit]
  rw [joinPieces.eq_def]
  simp [hhigh, hlow, h]

theorem readPieces_plain {c : Char} (hquote : c ≠ '"') (hbackslash : c ≠ '\\')
    (hcontrol : ¬c.toNat < 0x20) {cs rest : List Char} {ps : List Piece}
    (h : readPieces cs = some (ps, rest)) :
    readPieces (c :: cs) = some (.char c :: ps, rest) := by
  rw [readPieces]
  · simp [hcontrol, hbackslash, h]
  · exact hquote
  · exact fun _ _ _ _ _ hc _ => hbackslash hc
  · exact fun _ _ hc _ => hbackslash hc

/-- A character between quotes is read as one piece, which stands for it. -/
theorem exists_readPieces_escape (c : Char) {cs rest : List Char} {ps : List Piece}
    (h : readPieces cs = some (ps, rest)) :
    ∃ p, readPieces (escape c ++ cs) = some (p :: ps, rest) ∧
      ∀ text, joinPieces ps = some text → joinPieces (p :: ps) = some (c :: text) := by
  unfold escape
  split
  case h_8 hquote hbackslash _ _ _ _ _ =>
    split
    · rename_i hcontrol
      obtain ⟨a, b, ha, hb, hn⟩ := hexFour?_control c.toNat hcontrol
      refine ⟨.unit c.toNat, ?_, fun text => joinPieces_control hcontrol⟩
      simp [readPieces, ha, hb, hn, h]
    · rename_i hcontrol
      refine ⟨.char c, ?_, fun text => joinPieces_char⟩
      exact readPieces_plain hquote hbackslash hcontrol h
  all_goals
    exact ⟨.char _, by simp [readPieces, unescape?, h], fun _ => joinPieces_char⟩

theorem exists_readPieces_flatMap (cs : List Char) (rest : List Char) :
    ∃ ps, readPieces (cs.flatMap escape ++ '"' :: rest) = some (ps, rest) ∧
      joinPieces ps = some cs := by
  induction cs with
  | nil => exact ⟨[], by simp [readPieces], rfl⟩
  | cons c cs ih =>
    obtain ⟨ps, hps, hcs⟩ := ih
    obtain ⟨p, hp, hjoin⟩ := exists_readPieces_escape c hps
    exact ⟨p :: ps, by simpa using hp, hjoin cs hcs⟩

/-- A string is read back from between its quotes. -/
theorem readString_quote (s : String) (rest : List Char) :
    readString (s.toList.flatMap escape ++ '"' :: rest) = some (some s, rest) := by
  obtain ⟨ps, hps, hjoin⟩ := exists_readPieces_flatMap s.toList rest
  simp [readString, hps, hjoin]

/-! ### Values -/

/-- Values whose strings have a text and whose numbers are literals. -/
inductive Printable : Json → Prop where
  | null : Printable .null
  | bool (b : Bool) : Printable (.bool b)
  | number {literal : List Char} : Literal literal → Printable (.number literal)
  | string (s : String) : Printable (.string (some s))
  | array {items : List Json} : (∀ item ∈ items, Printable item) → Printable (.array items)
  | object {fields : List (Option String × Json)} : (∀ field ∈ fields, field.1.isSome = true) →
      (∀ field ∈ fields, Printable field.2) → Printable (.object fields)

theorem skipBlank_freshLine (level : Nat) (cs : List Char) :
    skipBlank (freshLine level ++ cs) = skipBlank cs := by
  rw [skipBlank, freshLine, List.cons_append, List.dropWhile_cons_of_pos (by rfl),
    List.dropWhile_append_of_pos, skipBlank]
  intro c hc
  rw [List.eq_of_mem_replicate hc]
  rfl

/-- A reading does not depend on the blanks before it. -/
theorem readValue_congr {cs cs' : List Char} (h : skipBlank cs = skipBlank cs') (n : Nat) :
    readValue n cs = readValue n cs' := by
  cases n with
  | zero => rfl
  | succ n => rw [readValue, readValue, h]

theorem readFields_congr {cs cs' : List Char} (h : skipBlank cs = skipBlank cs') (n : Nat) :
    readFields n cs = readFields n cs' := by
  cases n with
  | zero => rfl
  | succ n => rw [readFields, readFields, h]

theorem readItems_congr {cs cs' : List Char} (h : skipBlank cs = skipBlank cs') (n : Nat) :
    readItems n cs = readItems n cs' := by
  cases n with
  | zero => rfl
  | succ n => rw [readItems, readItems, readValue_congr h]

/-- Whether a value is read from its text, wherever that stands. -/
def ReadsBack (j : Json) : Prop :=
  ∀ (level n : Nat) (rest : List Char), EndsNumber rest → 2 * (j.printAt level).length ≤ n →
    readValue (n + 1) (j.printAt level ++ rest) = some (j, rest)

theorem endsNumber_printItems (level : Nat) (items : List Json) (rest : List Char) :
    EndsNumber (printItems (level + 1) items ++ (freshLine level ++ rest)) := by
  cases items with
  | nil => rw [printItems]; rintro c ⟨⟩; decide
  | cons item items => rw [printItems]; rintro c ⟨⟩; decide

theorem endsNumber_printFields (level : Nat) (fields : List (Option String × Json))
    (rest : List Char) :
    EndsNumber (printFields (level + 1) fields ++ (freshLine level ++ rest)) := by
  cases fields with
  | nil => rw [printFields]; rintro c ⟨⟩; decide
  | cons item items => rw [printFields]; rintro c ⟨⟩; decide

theorem readItems_printItems {item : Json} {items : List Json}
    (h : ∀ j ∈ item :: items, ReadsBack j) (level : Nat) {n : Nat}
    (hn : 2 * (item.printAt (level + 1) ++ printItems (level + 1) items).length < n)
    (rest : List Char) :
    readItems (n + 1) (item.printAt (level + 1) ++ (printItems (level + 1) items ++
      (freshLine level ++ ']' :: rest))) = some (item :: items, rest) := by
  induction items generalizing item n with
  | nil =>
    obtain ⟨n, rfl⟩ := Nat.exists_eq_succ_of_ne_zero (show n ≠ 0 by omega)
    rw [readItems, h item List.mem_cons_self (level + 1) n _
      (endsNumber_printItems level [] (']' :: rest)) (by simp at hn; omega)]
    have hclose : skipBlank (freshLine level ++ ']' :: rest) = ']' :: rest :=
      skipBlank_freshLine level _
    simp [printItems, hclose]
  | cons next items ih =>
    obtain ⟨n, rfl⟩ := Nat.exists_eq_succ_of_ne_zero (show n ≠ 0 by omega)
    simp only [printItems, List.length_append, List.length_cons] at hn
    rw [readItems, h item List.mem_cons_self (level + 1) n _
      (endsNumber_printItems level (next :: items) (']' :: rest)) (by omega)]
    have hnext := ih (fun j hj => h j (List.mem_cons_of_mem _ hj)) (n := n)
      (by simp only [List.length_append]; omega)
    rw [← readItems_congr (skipBlank_freshLine (level + 1) _)] at hnext
    simp [printItems, skipBlank, hnext]

theorem exists_printField_eq (level : Nat) (field : Option String × Json) :
    ∃ cs, printField level field = '"' :: cs := ⟨_, by rw [printField]; rfl⟩

/-- The key and the value of a field are read; then comes another field or the end. -/
theorem readFields_printField {key : String} {value : Json} (h : ReadsBack value) (level : Nat)
    {n : Nat} (hn : 2 * (printField level (some key, value)).length ≤ n) {rest : List Char}
    (hrest : EndsNumber rest) :
    readFields (n + 2) (printField level (some key, value) ++ rest) =
      match skipBlank rest with
      | ',' :: cs => do
        let (fields, cs) ← readFields (n + 1) cs
        return ((some key, value) :: fields, cs)
      | '\x7d' :: cs => return ([(some key, value)], cs)
      | _ => none := by
  have hlength : 2 * (value.printAt level).length ≤ n := by
    simp only [printField, List.length_append] at hn
    omega
  have htext : printField level (some key, value) ++ rest =
      '"' :: (key.toList.flatMap escape ++ '"' :: ':' :: ' ' :: (value.printAt level ++ rest)) := by
    simp [printField, quote]
  have hquote (cs : List Char) : skipBlank ('"' :: cs) = '"' :: cs := rfl
  have hcolon (cs : List Char) : skipBlank (':' :: cs) = ':' :: cs := rfl
  have hspace (cs : List Char) : skipBlank (' ' :: cs) = skipBlank cs := rfl
  have hvalue : readValue (n + 1) (' ' :: (value.printAt level ++ rest)) = some (value, rest) := by
    rw [readValue_congr (hspace _), h level n rest hrest hlength]
  rw [htext, readFields, hquote]
  simp only [readString_quote, hcolon, Option.bind_eq_bind, Option.bind_some]
  exact (congrArg (Option.bind · _) hvalue).trans rfl

theorem readFields_printFields {field : Option String × Json}
    {fields : List (Option String × Json)} (hkey : ∀ f ∈ field :: fields, f.1.isSome = true)
    (h : ∀ f ∈ field :: fields, ReadsBack f.2) (level : Nat) {n : Nat}
    (hn : 2 * (printField (level + 1) field ++ printFields (level + 1) fields).length < n)
    (rest : List Char) :
    readFields (n + 1) (printField (level + 1) field ++ (printFields (level + 1) fields ++
      (freshLine level ++ '\x7d' :: rest))) = some (field :: fields, rest) := by
  induction fields generalizing field n with
  | nil =>
    obtain ⟨key, value⟩ := field
    obtain ⟨key, rfl⟩ := Option.isSome_iff_exists.1 (hkey _ List.mem_cons_self)
    obtain ⟨n, rfl⟩ := Nat.exists_eq_succ_of_ne_zero (show n ≠ 0 by omega)
    have hclose : skipBlank (freshLine level ++ '\x7d' :: rest) = '\x7d' :: rest :=
      skipBlank_freshLine level _
    have hvalue : ReadsBack value := h (some key, value) List.mem_cons_self
    rw [readFields_printField hvalue (level + 1) (by simp at hn; omega)
      (endsNumber_printFields level [] ('\x7d' :: rest))]
    simp [printFields, hclose]
  | cons next fields ih =>
    obtain ⟨key, value⟩ := field
    obtain ⟨key, rfl⟩ := Option.isSome_iff_exists.1 (hkey _ List.mem_cons_self)
    obtain ⟨n, rfl⟩ := Nat.exists_eq_succ_of_ne_zero (show n ≠ 0 by omega)
    simp only [printFields, List.length_append, List.length_cons] at hn
    have hvalue : ReadsBack value := h (some key, value) List.mem_cons_self
    rw [readFields_printField hvalue (level + 1) (by omega)
      (endsNumber_printFields level (next :: fields) ('\x7d' :: rest))]
    have hnext := ih (fun f hf => hkey f (List.mem_cons_of_mem _ hf))
      (fun f hf => h f (List.mem_cons_of_mem _ hf)) (n := n)
      (by simp only [List.length_append]; omega)
    rw [← readFields_congr (skipBlank_freshLine (level + 1) _)] at hnext
    simp [printFields, skipBlank, hnext]

/-- No blank is skipped before a literal. -/
theorem skipBlank_literal {c : Char} (hc : ∀ d, Decimal.isDigit d = false → d ≠ '-' → c ≠ d)
    (cs : List Char) : skipBlank (c :: cs) = c :: cs := by
  have hspace : c ≠ ' ' := hc _ rfl (by decide)
  have hline : c ≠ '\n' := hc _ rfl (by decide)
  have htab : c ≠ '\t' := hc _ rfl (by decide)
  have hreturn : c ≠ '\r' := hc _ rfl (by decide)
  simp [skipBlank, hspace, hline, htab, hreturn]

/-- A value begins with a character that is no blank and closes nothing. -/
theorem Printable.exists_cons {j : Json} (h : Printable j) (level : Nat) :
    ∃ c cs, j.printAt level = c :: cs ∧ (∀ ds, skipBlank (c :: ds) = c :: ds) ∧ c ≠ ']' := by
  cases h with
  | null => exact ⟨'n', _, rfl, fun _ => rfl, by decide⟩
  | bool b => cases b <;> exact ⟨_, _, rfl, fun _ => rfl, by decide⟩
  | string s => exact ⟨'"', _, rfl, fun _ => rfl, by decide⟩
  | @array items _ => cases items <;> exact ⟨'[', _, by rw [printAt]; rfl, fun _ => rfl, by decide⟩
  | @object fields _ _ =>
    cases fields <;> exact ⟨'\x7b', _, by rw [printAt]; rfl, fun _ => rfl, by decide⟩
  | number h =>
    obtain ⟨c, cs, rfl, hc⟩ := h.exists_cons
    exact ⟨c, cs, by rw [printAt], skipBlank_literal hc, hc _ rfl (by decide)⟩

/-- A literal is told from all other values by its first character. -/
theorem readsBack_number {literal : List Char} (h : Literal literal) :
    ReadsBack (.number literal) := by
  intro level n rest hrest _
  have hread := h.readNumber_append hrest
  obtain ⟨c, cs, rfl, hc⟩ := h.exists_cons
  rw [List.cons_append] at hread
  rw [printAt, readValue, List.cons_append, skipBlank_literal hc]
  split
  case h_1 heq => cases heq
  case h_8 => exact hread
  all_goals
    rename_i heq
    exact absurd (List.cons.inj heq).1 (hc _ rfl (by decide))

theorem readsBack_array {items : List Json} (h : ∀ item ∈ items, ReadsBack item)
    (hprintable : ∀ item ∈ items, Printable item) : ReadsBack (.array items) := by
  intro level n rest _ hn
  cases items with
  | nil => rw [printAt]; rfl
  | cons item items =>
    simp only [printAt, List.length_append, List.length_cons] at hn
    obtain ⟨n, rfl⟩ := Nat.exists_eq_succ_of_ne_zero (show n ≠ 0 by omega)
    have hitems := readItems_printItems h level (n := n)
      (by simp only [List.length_append]; omega) rest
    obtain ⟨c, cs, hitem, hblank, hclose⟩ :=
      (hprintable item List.mem_cons_self).exists_cons (level + 1)
    have htext : (Json.array (item :: items)).printAt level ++ rest = '[' ::
        (freshLine (level + 1) ++ (item.printAt (level + 1) ++ (printItems (level + 1) items ++
          (freshLine level ++ ']' :: rest)))) := by
      simp [printAt]
    rw [htext]
    rw [hitem, List.cons_append] at hitems ⊢
    have hbracket (cs : List Char) : skipBlank ('[' :: cs) = '[' :: cs := rfl
    simp only [readValue, hbracket, skipBlank_freshLine, hblank]
    split
    · rename_i heq
      exact absurd (List.cons.inj heq).1 hclose
    · rw [hitems]
      rfl

theorem readsBack_object {fields : List (Option String × Json)}
    (hkey : ∀ field ∈ fields, field.1.isSome = true) (h : ∀ field ∈ fields, ReadsBack field.2) :
    ReadsBack (.object fields) := by
  intro level n rest _ hn
  cases fields with
  | nil => rw [printAt]; rfl
  | cons field fields =>
    simp only [printAt, List.length_append, List.length_cons] at hn
    obtain ⟨n, rfl⟩ := Nat.exists_eq_succ_of_ne_zero (show n ≠ 0 by omega)
    have hfields := readFields_printFields hkey h level (n := n)
      (by simp only [List.length_append]; omega) rest
    have htext : (Json.object (field :: fields)).printAt level ++ rest = '\x7b' ::
        (freshLine (level + 1) ++ (printField (level + 1) field ++ (printFields (level + 1) fields ++
          (freshLine level ++ '\x7d' :: rest)))) := by
      simp [printAt]
    have hbrace (cs : List Char) : skipBlank ('\x7b' :: cs) = '\x7b' :: cs := rfl
    obtain ⟨cs, hfield⟩ := exists_printField_eq (level + 1) field
    have hquote (cs : List Char) : skipBlank ('"' :: cs) = '"' :: cs := rfl
    rw [htext]
    rw [hfield, List.cons_append] at hfields ⊢
    simp [readValue, hbrace, skipBlank_freshLine, hquote, hfields]

theorem readsBack_string (s : String) : ReadsBack (.string (some s)) := by
  intro level n rest _ _
  have htext : (Json.string (some s)).printAt level ++ rest =
      '"' :: (s.toList.flatMap escape ++ '"' :: rest) := by
    simp [printAt, quote]
  have hquote (cs : List Char) : skipBlank ('"' :: cs) = '"' :: cs := rfl
  simp [htext, readValue, hquote, readString_quote]

/-- A value is read from its text, whatever follows that does not continue a number. -/
theorem Printable.readsBack {j : Json} (h : Printable j) : ReadsBack j := by
  induction h with
  | null => exact fun _ _ _ _ _ => rfl
  | bool b => cases b <;> exact fun _ _ _ _ _ => rfl
  | number h => exact readsBack_number h
  | string s => exact readsBack_string s
  | array hprintable ih => exact readsBack_array ih hprintable
  | object hkey _ ih => exact readsBack_object hkey ih

/-- Every double has a text, one that is not finite that of null. -/
theorem printable_ofFloat (x : Float) : Printable (ofFloat x) := by
  rw [ofFloat]
  split
  · rename_i hx
    exact .number (literal_render hx)
  · exact .null

/-- A value is read back from its text. -/
theorem read?_print {j : Json} (h : Printable j) : read? j.print.toList = some j := by
  have hread := h.readsBack 0 (2 * (j.printAt 0).length + 1) [] (by rintro _ ⟨⟩) (by omega)
  rw [List.append_nil] at hread
  rw [print, String.toList_ofList, read?, hread]
  rfl

end TabularParsing.Json
