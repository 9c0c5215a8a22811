import RowIndex.Text.Decimal
import Mathlib.Data.Nat.Digits.Lemmas

/-! # Which texts are decimal numbers

A decimal number is an optional single sign and then digits, at least one. Zeros may lead, so a number has
many texts.

* **`Decimal.IsNumeral`**, `Decimal.valueOf` — rows of digits, and the numbers that they stand for.
* **`Decimal.Spells`** — the grammar of signed numbers.
* **`int?_eq_some_iff`** — reading accepts exactly this grammar.
* **`Decimal.SpellsInt32`**, `int32?_eq_some_iff` — the same in the 32-bit range, whose lower end lies one
  further from zero than its upper end; `int32?_eq_none_iff` is about all other texts.
* **`int32?_ofInt32`** — what is written is read back. -/

namespace RowIndex.Decimal

/-! ## (1) The grammar -/

/-- **A row of digits**: at least one, and nothing else. -/
structure IsNumeral (digits : List Char) : Prop where
  /-- There is a digit. -/
  ne_nil : digits ≠ []
  /-- All characters are ASCII digits. -/
  isDigit : ∀ c ∈ digits, c.isDigit

/-- **The number that digits stand for**: the last of them counts ones, and each before it ten times as
much as the next. -/
def valueOf (digits : List Char) : Nat :=
  Nat.ofDigits 10 (digits.reverse.map fun c => c.toNat - '0'.toNat)

/-- **A text of a signed number.** -/
inductive Spells : List Char → Int → Prop
  /-- Digits alone. -/
  | plain {digits : List Char} : IsNumeral digits → Spells digits (valueOf digits)
  /-- Digits behind a plus sign. -/
  | plus {digits : List Char} : IsNumeral digits → Spells ('+' :: digits) (valueOf digits)
  /-- Digits behind a minus sign. -/
  | minus {digits : List Char} : IsNumeral digits → Spells ('-' :: digits) (-(valueOf digits : Int))

/-- **A text of a number in the 32-bit range.** -/
structure SpellsInt32 (text : String) (i : Int) : Prop where
  /-- The text is that of the number. -/
  spells : Spells text.toList i
  /-- The number is not below the range. -/
  lower : -2 ^ 31 ≤ i
  /-- It is not above it. -/
  upper : i ≤ 2 ^ 31 - 1

theorem valueOf_cons (c : Char) (digits : List Char) :
    valueOf (c :: digits) = 10 ^ digits.length * (c.toNat - '0'.toNat) + valueOf digits := by
  unfold valueOf
  rw [List.reverse_cons, List.map_append, Nat.ofDigits_append, List.length_map, List.length_reverse,
    List.map_singleton, Nat.ofDigits_singleton, Nat.add_comm]

/-! ## (2) Reading -/

theorem digit?_eq_some_iff {c : Char} {d : Nat} :
    digit? c = some d ↔ c.isDigit ∧ d = c.toNat - '0'.toNat := by
  have hrange : c.isDigit = true ↔ '0' ≤ c ∧ c ≤ '9' := by
    rw [Char.isDigit, Bool.and_eq_true, decide_eq_true_iff, decide_eq_true_iff]
    rfl
  rw [digit?, hrange]
  split
  · rename_i h
    rw [Option.some.injEq, eq_comm]
    exact (and_iff_right h).symm
  · rename_i h
    exact iff_of_false (fun hnone => by cases hnone) fun hsome => h hsome.1

/-- **Digits behind a number already read** move it up by their count. -/
theorem digits?_eq_some_iff {value n : Nat} {digits : List Char} :
    digits? value digits = some n ↔
      (∀ c ∈ digits, c.isDigit) ∧ n = 10 ^ digits.length * value + valueOf digits := by
  induction digits generalizing value with
  | nil =>
    rw [digits?_nil, Option.some.injEq, eq_comm]
    simp [valueOf]
  | cons c digits ih =>
    rw [digits?_cons, Option.bind_eq_some_iff, List.forall_mem_cons, List.length_cons, valueOf_cons]
    have hmoved : 10 ^ digits.length * (10 * value + (c.toNat - '0'.toNat)) + valueOf digits
        = 10 ^ (digits.length + 1) * value
          + (10 ^ digits.length * (c.toNat - '0'.toNat) + valueOf digits) := by
      ring
    constructor
    · rintro ⟨d, hd, hrest⟩
      obtain ⟨hc, rfl⟩ := digit?_eq_some_iff.1 hd
      obtain ⟨hdigits, rfl⟩ := ih.1 hrest
      exact ⟨⟨hc, hdigits⟩, hmoved⟩
    · rintro ⟨⟨hc, hdigits⟩, rfl⟩
      exact ⟨_, digit?_eq_some_iff.2 ⟨hc, rfl⟩, ih.2 ⟨hdigits, hmoved.symm⟩⟩

theorem magnitude?_eq_some_iff {digits : List Char} {n : Nat} :
    magnitude? digits = some n ↔ IsNumeral digits ∧ n = valueOf digits := by
  cases digits with
  | nil => exact iff_of_false (fun h => by cases h) fun h => h.1.ne_nil rfl
  | cons c digits =>
    rw [magnitude?, digits?_eq_some_iff, Nat.mul_zero, Nat.zero_add]
    exact and_congr_left fun _ => ⟨fun h => ⟨List.cons_ne_nil c digits, h⟩, IsNumeral.isDigit⟩

/-- A sign is no digit. -/
theorem IsNumeral.head_ne {c : Char} {digits : List Char} (h : IsNumeral (c :: digits)) :
    c ≠ '+' ∧ c ≠ '-' := by
  have hc := h.isDigit c List.mem_cons_self
  constructor
  · rintro rfl
    cases hc
  · rintro rfl
    cases hc

/-- Digits read as a number that a sign may stand before. -/
theorem magnitude?_toInt_eq_some_iff {digits : List Char} {i : Int} :
    (do let n ← magnitude? digits; pure (n : Int)) = some i ↔
      IsNumeral digits ∧ i = valueOf digits := by
  constructor
  · intro h
    obtain ⟨n, hn, hi⟩ := Option.bind_eq_some_iff.1 h
    obtain ⟨hnumeral, rfl⟩ := magnitude?_eq_some_iff.1 hn
    exact ⟨hnumeral, (Option.some.inj hi).symm⟩
  · rintro ⟨hnumeral, rfl⟩
    exact Option.bind_eq_some_iff.2 ⟨_, magnitude?_eq_some_iff.2 ⟨hnumeral, rfl⟩, rfl⟩

/-- **Reading a signed number accepts exactly its texts.** -/
theorem int?_eq_some_iff {text : List Char} {i : Int} : int? text = some i ↔ Spells text i := by
  fun_cases int? text with
  | case1 rest =>
    rw [Option.map_eq_some_iff]
    constructor
    · rintro ⟨n, hn, rfl⟩
      obtain ⟨hnumeral, rfl⟩ := magnitude?_toInt_eq_some_iff.1 hn
      exact .minus hnumeral
    · intro h
      cases h with
      | plain hnumeral => exact absurd rfl hnumeral.head_ne.2
      | minus hnumeral => exact ⟨_, magnitude?_toInt_eq_some_iff.2 ⟨hnumeral, rfl⟩, rfl⟩
  | case2 rest =>
    rw [Option.map_eq_some_iff]
    constructor
    · rintro ⟨n, hn, rfl⟩
      obtain ⟨hnumeral, rfl⟩ := magnitude?_toInt_eq_some_iff.1 hn
      exact .plus hnumeral
    · intro h
      cases h with
      | plain hnumeral => exact absurd rfl hnumeral.head_ne.1
      | plus hnumeral => exact ⟨_, magnitude?_toInt_eq_some_iff.2 ⟨hnumeral, rfl⟩, rfl⟩
  | case3 _ hminus hplus =>
    rw [Option.map_eq_some_iff]
    constructor
    · rintro ⟨n, hn, rfl⟩
      obtain ⟨hnumeral, rfl⟩ := magnitude?_toInt_eq_some_iff.1 hn
      exact .plain hnumeral
    · intro h
      cases h with
      | plain hnumeral => exact ⟨_, magnitude?_toInt_eq_some_iff.2 ⟨hnumeral, rfl⟩, rfl⟩
      | plus => exact absurd rfl (hplus _)
      | minus => exact absurd rfl (hminus _)

/-- **Reading a number in the 32-bit range accepts exactly its texts.** -/
theorem int32?_eq_some_iff {text : String} {v : Int32} :
    int32? text = some v ↔ SpellsInt32 text v.toInt := by
  have hmin : Int32.minValue.toInt = -2 ^ 31 := by decide
  have hmax : Int32.maxValue.toInt = 2 ^ 31 - 1 := by decide
  rw [int32?, Option.bind_eq_some_iff, hmin, hmax]
  constructor
  · rintro ⟨i, hi, hv⟩
    split at hv
    · rename_i hrange
      obtain rfl := Option.some.inj hv
      rw [Int32.toInt_ofInt_of_le hrange.1 (Int.lt_of_le_sub_one hrange.2)]
      exact ⟨int?_eq_some_iff.1 hi, hrange.1, hrange.2⟩
    · cases hv
  · intro h
    refine ⟨v.toInt, int?_eq_some_iff.2 h.spells, ?_⟩
    rw [if_pos ⟨h.lower, h.upper⟩, Int32.ofInt_toInt]

/-- A text of a number in the range is read as a word with its value. -/
theorem SpellsInt32.exists_int32? {text : String} {i : Int} (h : SpellsInt32 text i) :
    ∃ v, int32? text = some v ∧ v.toInt = i := by
  have hvalue : (Int32.ofInt i).toInt = i :=
    Int32.toInt_ofInt_of_le h.lower (Int.lt_of_le_sub_one h.upper)
  exact ⟨Int32.ofInt i, int32?_eq_some_iff.2 (hvalue.symm ▸ h), hvalue⟩

/-- **Nothing is read where no number in the range is spelled.** -/
theorem int32?_eq_none_iff {text : String} : int32? text = none ↔ ∀ i, ¬ SpellsInt32 text i := by
  constructor
  · intro hnone i h
    obtain ⟨v, hv, -⟩ := h.exists_int32?
    rw [hnone] at hv
    cases hv
  · exact fun h => Option.eq_none_iff_forall_ne_some.2 fun v hv => h v.toInt (int32?_eq_some_iff.1 hv)

/-- The magnitude of the lower end is in the range with a minus sign only. -/
example : int32? "-0002147483648" = some Int32.minValue ∧ int32? "+2147483648" = none := by
  decide

/-! ## (3) Writing -/

/-- The digits that a number is written in are those of the number. -/
theorem valueOf_toDigits (n : Nat) : valueOf (Nat.toDigits 10 n) = n := by
  have hvalue : ∀ digits : List Char, valueOf digits = Nat.ofDigitChars 10 digits 0 := by
    intro digits
    induction digits with
    | nil => rfl
    | cons c digits ih =>
      rw [valueOf_cons, ih, Nat.ofDigitChars_cons, Nat.mul_zero, Nat.zero_add]
      exact Nat.ofDigitChars_eq_ofDigitChars_zero.symm
  rw [hvalue, Nat.ofDigitChars_ten_toDigits]

theorem isNumeral_toDigits (n : Nat) : IsNumeral (Nat.toDigits 10 n) where
  ne_nil := Nat.toDigits_ne_nil
  isDigit _ hc := Nat.isDigit_of_mem_toDigits (by decide) (by decide) hc

/-- **The decimal text of a number spells it.** -/
theorem spells_ofInt (i : Int) : Spells (ofInt i).toList i := by
  cases i with
  | ofNat n =>
    rw [ofInt, ofNat, String.toList_ofList]
    have h := Spells.plain (isNumeral_toDigits n)
    rwa [valueOf_toDigits] at h
  | negSucc n =>
    rw [ofInt, ofNat, String.toList_append, String.toList_ofList, String.toList_ofList]
    have h := Spells.minus (isNumeral_toDigits (n + 1))
    rwa [valueOf_toDigits] at h

/-- **What is written is read back.** -/
theorem int32?_ofInt32 (v : Int32) : int32? (ofInt32 v) = some v :=
  int32?_eq_some_iff.2 ⟨spells_ofInt v.toInt, Int32.le_toInt v, Int.le_sub_one_of_lt (Int32.toInt_lt v)⟩

end RowIndex.Decimal
