import RowIndex.Bytes

/-! # Four-byte little-endian words

Every number on a page is a 32-bit word, least significant byte first.

* **`pushWord b w`** appends the four bytes of `w`; `pushInt` the same for signed words.
* **`wordAt b i`** reads the four bytes from `i` on; `intAt` the same for signed words.
* **`wordAt_pushWord`**, `intAt_pushInt` — a word is read back where it was appended. -/

namespace RowIndex.LittleEndian

open Bytes

/-- **Appends the four bytes of `w`**, least significant first. -/
def pushWord (b : ByteArray) (w : UInt32) : ByteArray :=
  (((b.push w.toUInt8).push (w >>> 8).toUInt8).push (w >>> 16).toUInt8).push (w >>> 24).toUInt8

/-- Appends the four bytes of a signed word in two's complement. -/
def pushInt (b : ByteArray) (v : Int32) : ByteArray :=
  pushWord b v.toUInt32

/-- **The word in the four bytes from `i` on**; bytes past the end count as zero. -/
def wordAt (b : ByteArray) (i : Nat) : UInt32 :=
  (byteAt b i).toUInt32 + ((byteAt b (i + 1)).toUInt32 <<< 8)
    + ((byteAt b (i + 2)).toUInt32 <<< 16) + ((byteAt b (i + 3)).toUInt32 <<< 24)

/-- The signed word in the four bytes from `i` on. -/
def intAt (b : ByteArray) (i : Nat) : Int32 :=
  (wordAt b i).toInt32

@[simp] theorem size_pushWord (b : ByteArray) (w : UInt32) : (pushWord b w).size = b.size + 4 := by
  simp [pushWord]

@[simp] theorem size_pushInt (b : ByteArray) (v : Int32) : (pushInt b v).size = b.size + 4 :=
  size_pushWord b _

/-- Appending a word is appending its four bytes. -/
theorem pushWord_eq_append (b : ByteArray) (w : UInt32) :
    pushWord b w = b ++ pushWord ByteArray.empty w := by
  apply ByteArray.ext
  simp only [pushWord, ByteArray.data_push, ByteArray.data_append, ByteArray.data_empty]
  apply Array.toList_inj.1
  simp

/-- Appending a signed word is appending its four bytes. -/
theorem pushInt_eq_append (b : ByteArray) (v : Int32) :
    pushInt b v = b ++ pushInt ByteArray.empty v :=
  pushWord_eq_append b _

/-- **Four bytes make one word**: the value is the sum of the bytes at their places. -/
theorem toNat_wordAt (b : ByteArray) (i : Nat) :
    (wordAt b i).toNat = (byteAt b i).toNat + 0x100 * (byteAt b (i + 1)).toNat
      + 0x10000 * (byteAt b (i + 2)).toNat + 0x1000000 * (byteAt b (i + 3)).toNat := by
  have h₀ := (byteAt b i).toNat_lt
  have h₁ := (byteAt b (i + 1)).toNat_lt
  have h₂ := (byteAt b (i + 2)).toNat_lt
  have h₃ := (byteAt b (i + 3)).toNat_lt
  simp only [wordAt, UInt32.toNat_add, UInt32.toNat_shiftLeft, UInt8.toNat_toUInt32,
    Nat.shiftLeft_eq, UInt32.reduceToNat, Nat.reduceMod, Nat.reducePow]
  omega

/-- The four bytes of a word add up to it. -/
theorem sum_bytes (w : UInt32) :
    w.toUInt8.toUInt32 + ((w >>> 8).toUInt8.toUInt32 <<< 8)
      + ((w >>> 16).toUInt8.toUInt32 <<< 16) + ((w >>> 24).toUInt8.toUInt32 <<< 24) = w := by
  apply UInt32.toNat_inj.1
  have hw := w.toNat_lt
  simp only [UInt32.toNat_add, UInt32.toNat_shiftLeft, UInt32.toNat_shiftRight,
    UInt32.toNat_toUInt8, UInt8.toNat_toUInt32, Nat.shiftLeft_eq, Nat.shiftRight_eq_div_pow,
    UInt32.reduceToNat, Nat.reduceMod, Nat.reducePow]
  omega

/-- **A word is read back where it was appended**, whatever follows. -/
theorem wordAt_pushWord (b : ByteArray) (w : UInt32) (rest : ByteArray) :
    wordAt (pushWord b w ++ rest) b.size = w := by
  have hs := size_pushWord b w
  have hbyte : ∀ k, k < 4 →
      byteAt (pushWord b w ++ rest) (b.size + k) = byteAt (pushWord ByteArray.empty w) k := by
    intro k hk
    rw [byteAt_append, if_pos (by omega), pushWord_eq_append, byteAt_append, if_neg (by omega)]
    congr 1
    omega
  have h₀ := hbyte 0 (by omega)
  rw [Nat.add_zero] at h₀
  rw [wordAt, h₀, hbyte 1 (by omega), hbyte 2 (by omega), hbyte 3 (by omega)]
  exact sum_bytes w

/-- A signed word is read back where it was appended, whatever follows. -/
theorem intAt_pushInt (b : ByteArray) (v : Int32) (rest : ByteArray) :
    intAt (pushInt b v ++ rest) b.size = v := by
  rw [intAt, pushInt, wordAt_pushWord]
  rfl

end RowIndex.LittleEndian
