/-! # Byte strings

The few operations on `ByteArray` that fixed page layouts are built from.

* **`byteAt b i`** reads one byte, zero past the end.
* **`filled n v`** is `n` copies of a byte; `zeros n` the all-zero case.
* **`fit n b`** cuts or zero-pads to exactly `n` bytes, with `size_fit` its law.
* **`overwrite b i patch`** replaces the bytes from `i` on. -/

namespace RowIndex.Bytes

/-- **The byte at `i`**, zero past the end. -/
def byteAt (b : ByteArray) (i : Nat) : UInt8 :=
  if h : i < b.size then b[i] else 0

theorem byteAt_of_lt {b : ByteArray} {i : Nat} (h : i < b.size) : byteAt b i = b[i] := by
  simp [byteAt, h]

theorem byteAt_of_ge {b : ByteArray} {i : Nat} (h : b.size ≤ i) : byteAt b i = 0 := by
  simp [byteAt, Nat.not_lt.2 h]

/-- **The bytes are the only content**: equal lengths and equal bytes make equal strings. -/
theorem ext_byteAt {a b : ByteArray} (hs : a.size = b.size)
    (h : ∀ i, i < a.size → byteAt a i = byteAt b i) : a = b := by
  apply ByteArray.ext_getElem hs
  intro i h₁ h₂
  have := h i h₁
  rwa [byteAt_of_lt h₁, byteAt_of_lt h₂] at this

theorem byteAt_append (a b : ByteArray) (i : Nat) :
    byteAt (a ++ b) i = if i < a.size then byteAt a i else byteAt b (i - a.size) := by
  by_cases h : i < a.size
  · have h' : i < (a ++ b).size := by rw [ByteArray.size_append]; omega
    rw [byteAt_of_lt h', if_pos h, byteAt_of_lt h, ByteArray.getElem_append_left h]
  · rw [if_neg h]
    by_cases h₂ : i - a.size < b.size
    · have h' : i < (a ++ b).size := by rw [ByteArray.size_append]; omega
      rw [byteAt_of_lt h', byteAt_of_lt h₂, ByteArray.getElem_append_right (by omega)]
    · have h' : (a ++ b).size ≤ i := by rw [ByteArray.size_append]; omega
      rw [byteAt_of_ge h', byteAt_of_ge (by omega)]

theorem byteAt_extract (b : ByteArray) (lo hi i : Nat) :
    byteAt (b.extract lo hi) i = if lo + i < hi then byteAt b (lo + i) else 0 := by
  by_cases h : i < (b.extract lo hi).size
  · have hb := h
    rw [ByteArray.size_extract] at hb
    rw [byteAt_of_lt h, ByteArray.getElem_extract, if_pos (by omega), byteAt_of_lt (by omega)]
  · rw [byteAt_of_ge (by omega)]
    rw [ByteArray.size_extract] at h
    split
    · rw [byteAt_of_ge (by omega)]
    · rfl

/-! ## (1) Runs of one byte -/

/-- **`n` copies of the byte `v`.** -/
def filled (n : Nat) (v : UInt8) : ByteArray :=
  Nat.repeat (fun b => b.push v) n ByteArray.empty

/-- **`n` zero bytes.** -/
def zeros (n : Nat) : ByteArray :=
  filled n 0

@[simp] theorem filled_zero (v : UInt8) : filled 0 v = ByteArray.empty := rfl

@[simp] theorem filled_succ (n : Nat) (v : UInt8) : filled (n + 1) v = (filled n v).push v := rfl

@[simp] theorem size_filled (n : Nat) (v : UInt8) : (filled n v).size = n := by
  induction n with
  | zero => rfl
  | succ n ih => rw [filled_succ, ByteArray.size_push, ih]

@[simp] theorem size_zeros (n : Nat) : (zeros n).size = n :=
  size_filled n 0

/-! ## (2) Cutting, padding and overwriting -/

/-- **Exactly `n` bytes**: the first `n`, or all of them followed by zeros. -/
def fit (n : Nat) (b : ByteArray) : ByteArray :=
  b.extract 0 n ++ zeros (n - b.size)

@[simp] theorem size_fit (n : Nat) (b : ByteArray) : (fit n b).size = n := by
  simp only [fit, ByteArray.size_append, ByteArray.size_extract, size_zeros]
  omega

/-- A string that already has the wanted length is kept. -/
theorem fit_of_size_eq {n : Nat} {b : ByteArray} (h : b.size = n) : fit n b = b := by
  subst h
  simp [fit, zeros]

/-- **`b` with the bytes from `i` on replaced by `patch`**; what lies around it is kept. -/
def overwrite (b : ByteArray) (i : Nat) (patch : ByteArray) : ByteArray :=
  b.extract 0 i ++ patch ++ b.extract (i + patch.size) b.size

/-- A patch that lies inside keeps the length. -/
theorem size_overwrite {b : ByteArray} {i : Nat} {patch : ByteArray} (h : i + patch.size ≤ b.size) :
    (overwrite b i patch).size = b.size := by
  simp only [overwrite, ByteArray.size_append, ByteArray.size_extract]
  omega

/-- Inside the patch the new bytes are read, outside it the old ones. -/
theorem byteAt_overwrite {b : ByteArray} {i : Nat} {patch : ByteArray}
    (h : i + patch.size ≤ b.size) (j : Nat) :
    byteAt (overwrite b i patch) j =
      if i ≤ j ∧ j < i + patch.size then byteAt patch (j - i) else byteAt b j := by
  have hi : (b.extract 0 i).size = i := by rw [ByteArray.size_extract]; omega
  simp only [overwrite, byteAt_append, byteAt_extract, ByteArray.size_append, hi]
  by_cases h₁ : j < i
  · simp [h₁, show j < i + patch.size by omega, show ¬ i ≤ j by omega]
  · by_cases h₂ : j < i + patch.size
    · simp [h₁, h₂, show i ≤ j by omega]
    · simp only [h₂, if_false, and_false]
      have : i + patch.size + (j - (i + patch.size)) = j := by omega
      rw [this]
      split
      · rfl
      · rw [byteAt_of_ge (by omega)]

end RowIndex.Bytes
