import RowIndex.Proofs.OpenFiles
import Mathlib.Data.Nat.Bitwise

/-! # What the checksum of a record detects

A written record is read back, and a change in one of its two fields is noticed: the change is a burst
of at most 32 bits, and the check is linear with a feedback that loses no bit.

* **`Crc32.shift_xor`**, `Crc32.shift_injective` — one bit of the register: linear, and one to one.
* **`Crc32.register_eq_repeat_shift`** — up to four bytes are absorbed as one word.
* **`Crc32.crc32_ne_of_burst`** — byte strings that differ in at most four consecutive bytes have
  different checks.
* **`Metadata.read_changed_record`** — a changed record is refused, unless its checksum is the zero
  that stands for "not compared". -/

namespace RowIndex

namespace Crc32

/-! ## (1) One bit -/

/-- The bit that falls out of the register, as a remainder. -/
theorem and_one_eq_one_iff (r : UInt32) : r &&& 1 = 1 ↔ r.toNat % 2 = 1 := by
  rw [← UInt32.toNat_inj, UInt32.toNat_and, UInt32.toNat_one, Nat.and_one_is_mod]

theorem shift_of_even {r : UInt32} (h : r.toNat % 2 = 0) : shift r = r >>> 1 := by
  rw [shift, if_neg]
  rw [and_one_eq_one_iff]
  omega

theorem shift_of_odd {r : UInt32} (h : r.toNat % 2 = 1) : shift r = (r >>> 1) ^^^ polynomial := by
  rw [shift, if_pos ((and_one_eq_one_iff r).2 h)]

theorem toNat_xor_mod_two (a b : UInt32) :
    (a ^^^ b).toNat % 2 = (a.toNat + b.toNat) % 2 := by
  rw [UInt32.toNat_xor]
  exact Nat.xor_mod_two_eq

/-- **The register is linear.** -/
theorem shift_xor (a b : UInt32) : shift (a ^^^ b) = shift a ^^^ shift b := by
  have hmod := toNat_xor_mod_two a b
  rcases Nat.mod_two_eq_zero_or_one a.toNat with ha | ha <;>
    rcases Nat.mod_two_eq_zero_or_one b.toNat with hb | hb
  · rw [shift_of_even ha, shift_of_even hb, shift_of_even (by omega), UInt32.shiftRight_xor]
  · rw [shift_of_even ha, shift_of_odd hb, shift_of_odd (by omega), UInt32.shiftRight_xor,
      UInt32.xor_assoc]
  · rw [shift_of_odd ha, shift_of_even hb, shift_of_odd (by omega), UInt32.shiftRight_xor]
    ac_rfl
  · -- the two feedbacks cancel
    have hcancel : ∀ x y p : UInt32, (x ^^^ p) ^^^ (y ^^^ p) = x ^^^ y := fun x y p => by
      rw [UInt32.xor_assoc, UInt32.xor_comm y, ← UInt32.xor_assoc p, UInt32.xor_self,
        UInt32.zero_xor]
    rw [shift_of_odd ha, shift_of_odd hb, shift_of_even (by omega), UInt32.shiftRight_xor, hcancel]

theorem toNat_shiftRight_one (r : UInt32) : (r >>> 1).toNat = r.toNat / 2 := by
  rw [UInt32.toNat_shiftRight]
  rfl

/-- **No bit is lost**: what falls out at one end is fed back at the other. -/
theorem eq_zero_of_shift {r : UInt32} (h : shift r = 0) : r = 0 := by
  rcases Nat.mod_two_eq_zero_or_one r.toNat with hr | hr
  · rw [shift_of_even hr] at h
    have hhalf := toNat_shiftRight_one r
    rw [h, UInt32.toNat_zero] at hhalf
    apply UInt32.toNat_inj.1
    rw [UInt32.toNat_zero]
    omega
  · -- the topmost tap is at the topmost bit, which is free after the shift
    rw [shift_of_odd hr, UInt32.xor_eq_zero_iff] at h
    have hhalf := toNat_shiftRight_one r
    have hlt := r.toNat_lt
    rw [h, show polynomial.toNat = 0xEDB88320 from rfl] at hhalf
    omega

theorem shift_injective : Function.Injective shift := by
  intro a b h
  rw [← UInt32.xor_eq_zero_iff]
  apply eq_zero_of_shift
  rw [shift_xor, h, UInt32.xor_self]

/-! ## (2) One word -/

/-- Many shifts are linear too. -/
theorem repeat_shift_xor (n : Nat) (a b : UInt32) :
    Nat.repeat shift n (a ^^^ b) = Nat.repeat shift n a ^^^ Nat.repeat shift n b := by
  induction n with
  | zero => rfl
  | succ n ih => rw [Nat.repeat, Nat.repeat, Nat.repeat, ih, shift_xor]

theorem repeat_shift_injective (n : Nat) : Function.Injective (Nat.repeat shift n) := by
  induction n with
  | zero => exact fun _ _ h => h
  | succ n ih => exact shift_injective.comp ih

theorem repeat_shift_add (m n : Nat) (r : UInt32) :
    Nat.repeat shift (m + n) r = Nat.repeat shift m (Nat.repeat shift n r) := by
  induction m with
  | zero => rw [Nat.zero_add]; rfl
  | succ m ih => rw [Nat.add_right_comm, Nat.repeat, Nat.repeat, ih]

/-- **Bits that do not reach the end just move on.** -/
theorem toNat_repeat_shift {n : Nat} {r : UInt32} (h : 2 ^ n ∣ r.toNat) :
    (Nat.repeat shift n r).toNat = r.toNat / 2 ^ n := by
  induction n with
  | zero => simp [Nat.repeat]
  | succ n ih =>
    have hsome := ih (Nat.dvd_trans (Nat.pow_dvd_pow 2 n.le_succ) h)
    obtain ⟨k, hk⟩ := h
    rw [Nat.pow_succ, Nat.mul_assoc] at hk
    rw [hk, Nat.mul_div_cancel_left _ (Nat.two_pow_pos n)] at hsome
    rw [Nat.repeat, shift_of_even (by omega), toNat_shiftRight_one, hsome, hk, Nat.pow_succ,
      ← Nat.div_div_eq_div_mul, Nat.mul_div_cancel_left _ (Nat.two_pow_pos n)]

/-- A byte further up in the register is one that comes eight shifts later. -/
theorem repeat_shift_shiftLeft {p : UInt32} (h : p.toNat < 2 ^ 24) :
    Nat.repeat shift 8 (p <<< 8) = p := by
  have hplace : (p <<< 8).toNat = p.toNat * 2 ^ 8 := by
    rw [UInt32.toNat_shiftLeft, Nat.shiftLeft_eq]
    simp
    omega
  apply UInt32.toNat_inj.1
  rw [toNat_repeat_shift (by rw [hplace]; exact Nat.dvd_mul_left _ _), hplace,
    Nat.mul_div_cancel _ (by decide)]

/-- **Bytes in one word**, the first one lowest. -/
def packed : List UInt8 → UInt32
  | [] => 0
  | b :: bytes => b.toUInt32 ^^^ (packed bytes <<< 8)

theorem toNat_packed_lt (bytes : List UInt8) (h : bytes.length ≤ 4) :
    (packed bytes).toNat < 2 ^ (8 * bytes.length) := by
  induction bytes with
  | nil => decide
  | cons b bytes ih =>
    have hrest := ih (Nat.le_of_succ_le h)
    have hb := b.toNat_lt
    rw [List.length_cons] at *
    rw [packed, UInt32.toNat_xor]
    refine Nat.xor_lt_two_pow ?_ ?_
    · rw [UInt8.toNat_toUInt32]
      exact Nat.lt_of_lt_of_le hb (Nat.pow_le_pow_right (by decide) (by omega))
    · rw [UInt32.toNat_shiftLeft, Nat.shiftLeft_eq]
      refine Nat.lt_of_le_of_lt (Nat.mod_le _ _) ?_
      rw [Nat.mul_add, Nat.pow_add]
      exact Nat.mul_lt_mul_of_pos_right hrest (by decide)

/-- **A word at a time**: absorbing up to four bytes is adding them to the register and shifting. -/
theorem register_eq_repeat_shift (start : UInt32) (bytes : List UInt8) (h : bytes.length ≤ 4) :
    register start bytes = Nat.repeat shift (8 * bytes.length) (start ^^^ packed bytes) := by
  induction bytes generalizing start with
  | nil => simp [packed, Nat.repeat]
  | cons b bytes ih =>
    rw [List.length_cons] at h
    have hsmall : (packed bytes).toNat < 2 ^ 24 :=
      Nat.lt_of_lt_of_le (toNat_packed_lt bytes (by omega)) (Nat.pow_le_pow_right (by decide) (by omega))
    rw [register_cons, ih _ (by omega), absorb, List.length_cons, Nat.mul_succ, repeat_shift_add, packed,
      ← UInt32.xor_assoc, repeat_shift_xor 8 (start ^^^ b.toUInt32), repeat_shift_shiftLeft hsmall]

/-- The lowest byte of a word. -/
theorem toUInt8_packed_cons (b : UInt8) (bytes : List UInt8) : (packed (b :: bytes)).toUInt8 = b := by
  rw [packed, UInt32.toUInt8_xor]
  have h : (packed bytes <<< 8).toUInt8 = 0 := by
    apply UInt8.toNat_inj.1
    simp
    omega
  rw [h]
  simp

theorem packed_cons_shiftRight (b : UInt8) {bytes : List UInt8} (h : bytes.length ≤ 3) :
    packed (b :: bytes) >>> 8 = packed bytes := by
  have hsmall : (packed bytes).toNat < 2 ^ 24 :=
    Nat.lt_of_lt_of_le (toNat_packed_lt bytes (by omega)) (Nat.pow_le_pow_right (by decide) (by omega))
  rw [packed, UInt32.shiftRight_xor]
  have hb : b.toUInt32 >>> 8 = 0 := by
    apply UInt32.toNat_inj.1
    have := b.toNat_lt
    rw [UInt32.toNat_shiftRight]
    simp
    omega
  rw [hb, UInt32.zero_xor]
  apply UInt32.toNat_inj.1
  rw [UInt32.toNat_shiftRight, UInt32.toNat_shiftLeft, Nat.shiftLeft_eq, Nat.shiftRight_eq_div_pow]
  simp
  omega

/-! ## (3) Bursts -/

theorem packed_injective {a b : List UInt8} (hlen : a.length = b.length) (h : a.length ≤ 4)
    (hpacked : packed a = packed b) : a = b := by
  induction a generalizing b with
  | nil => exact (List.length_eq_zero_iff.1 hlen.symm).symm
  | cons x a ih =>
    cases b with
    | nil => cases hlen
    | cons y b =>
      rw [List.length_cons] at h hlen
      rw [List.length_cons] at hlen
      have hhead : x = y := by
        rw [← toUInt8_packed_cons x a, hpacked, toUInt8_packed_cons]
      have htail : packed a = packed b := by
        rw [← packed_cons_shiftRight x (by omega), hpacked, packed_cons_shiftRight y (by omega)]
      rw [hhead, ih (by omega) (by omega) htail]

/-- **What was in the register stays visible**, whatever is absorbed. -/
theorem register_start_injective (bytes : List UInt8) :
    Function.Injective fun start => register start bytes := by
  induction bytes with
  | nil => exact fun _ _ h => h
  | cons b bytes ih =>
    intro r s h
    have habsorb : absorb r b = absorb s b := ih h
    exact (UInt32.xor_left_inj _).1 (repeat_shift_injective 8 habsorb)

/-- Up to four bytes are visible in the register. -/
theorem register_word_injective {start : UInt32} {a b : List UInt8} (hlen : a.length = b.length)
    (h : a.length ≤ 4) (hregister : register start a = register start b) : a = b := by
  rw [register_eq_repeat_shift start a h, register_eq_repeat_shift start b (by omega), hlen]
    at hregister
  exact packed_injective hlen h ((UInt32.xor_right_inj _).1 (repeat_shift_injective _ hregister))

/-- **A burst of at most four bytes changes the check.** -/
theorem crc32_ne_of_burst (before after : ByteArray) {a b : ByteArray} (hsize : a.size = b.size)
    (h : a.size ≤ 4) (hne : a ≠ b) : crc32 (before ++ a ++ after) ≠ crc32 (before ++ b ++ after) := by
  intro hcrc
  have hregister := (UInt32.xor_left_inj _).1 hcrc
  simp only [ByteArray.toList_data_append, register_append] at hregister
  have hburst := register_word_injective (by simpa using hsize) (by simpa using h)
    (register_start_injective _ hregister)
  exact hne (ByteArray.ext (Array.toList_inj.1 hburst))

end Crc32

namespace Metadata

open Bytes LittleEndian

/-! ## (4) Changed records -/

/-- **A change in the four bytes from `i` on**: something differs, and nothing differs elsewhere. -/
structure ChangedWithin (i : Nat) (b b' : ByteArray) : Prop where
  /-- The length is the same. -/
  size : b'.size = b.size
  /-- At least one bit differs. -/
  changed : b' ≠ b
  /-- The bytes around the four are the same. -/
  outside : ∀ j, ¬ (i ≤ j ∧ j < i + 4) → byteAt b' j = byteAt b j

theorem changedWithin_overwrite {i : Nat} {b patch : ByteArray} (hpatch : patch.size = 4)
    (hfit : i + 4 ≤ b.size) (hne : overwrite b i patch ≠ b) :
    ChangedWithin i b (overwrite b i patch) := by
  rw [← hpatch] at hfit
  refine ⟨size_overwrite hfit, hne, fun j hj => ?_⟩
  rw [byteAt_overwrite hfit, if_neg (by rwa [hpatch])]

/-- **A change in a checked field changes the checksum.** -/
theorem ChangedWithin.checksum_ne {i : Nat} {b b' : ByteArray} (h : ChangedWithin i b b')
    (hi : i + 4 ≤ 8) : checksum b' ≠ checksum b := by
  have hsplit : ∀ c : ByteArray,
      c.extract 0 8 = c.extract 0 i ++ c.extract i (i + 4) ++ c.extract (i + 4) 8 := fun c => by
    rw [ByteArray.extract_eq_extract_append_extract (i + 4) (Nat.zero_le _) hi,
      ByteArray.extract_eq_extract_append_extract i (Nat.zero_le _) (Nat.le_add_right i 4)]
  have hkept : ∀ lo hi : Nat, hi ≤ i ∨ i + 4 ≤ lo → b'.extract lo hi = b.extract lo hi := by
    intro lo hi hlohi
    apply ext_byteAt
    · rw [ByteArray.size_extract, ByteArray.size_extract, h.size]
    · intro j _
      rw [byteAt_extract, byteAt_extract]
      split
      · exact h.outside _ (by omega)
      · rfl
  have hsizes : (b'.extract i (i + 4)).size = (b.extract i (i + 4)).size := by
    rw [ByteArray.size_extract, ByteArray.size_extract, h.size]
  have hburst : b'.extract i (i + 4) ≠ b.extract i (i + 4) := by
    intro hsame
    refine h.changed (ext_byteAt h.size fun j _ => ?_)
    by_cases hj : i ≤ j ∧ j < i + 4
    · have hbyte := congrArg (byteAt · (j - i)) hsame
      simp only [byteAt_extract] at hbyte
      rwa [show i + (j - i) = j by omega, if_pos hj.2, if_pos hj.2] at hbyte
    · exact h.outside j hj
  rw [checksum, checksum, checkedSize, hsplit b', hsplit b, hkept 0 i (.inl (Nat.le_refl i)),
    hkept (i + 4) 8 (.inr (Nat.le_refl _))]
  refine Crc32.crc32_ne_of_burst _ _ hsizes ?_ hburst
  rw [ByteArray.size_extract]
  omega

/-- What a buffer starts with after a record was written to it. -/
theorem writeTo_eq_ok {b : ByteArray} (hsize : recordSize ≤ b.size) (m : Metadata) :
    writeTo b m = .ok (overwrite b 0 m.image) ∧ 12 ≤ (overwrite b 0 m.image).size ∧
      ∀ j, j < 12 → byteAt (overwrite b 0 m.image) j = byteAt m.image j := by
  have hfit : 0 + m.image.size ≤ b.size := by rwa [size_image, Nat.zero_add]
  refine ⟨if_neg (Nat.not_lt.2 hsize), ?_, fun j hj => ?_⟩
  · rwa [size_overwrite hfit]
  · rw [byteAt_overwrite hfit, if_pos ⟨Nat.zero_le j, by rw [size_image]; omega⟩, Nat.sub_zero]

/-- **A written record, changed in its root or in its page count.** The record that was written is read
back. A change is noticed by the checksum, unless that of the record is the zero that is not compared;
then the fields that are found are taken, if they can be trusted. -/
theorem read_changed_record {m : Metadata} {b : ByteArray} (hpages : 1 ≤ m.pages.toInt)
    (hroot : m.root = .none ∨ (1 ≤ m.root.val.toInt ∧ m.root.val.toInt < m.pages.toInt))
    (hsize : recordSize ≤ b.size) :
    ∃ w, writeTo b m = .ok w ∧ read w = .ok m ∧
      ∀ i w', i = 0 ∨ i = 4 → ChangedWithin i w w' →
        (checksum m.fields ≠ 0 →
          read w' = .error (.checksum (checksum m.fields) (checksum w'))) ∧
        (checksum m.fields = 0 →
          ∀ m', read w' = .ok m' ↔ m' = ⟨⟨intAt w' 0⟩, intAt w' 4⟩ ∧ m'.defect? = none) := by
  have hsound : m.defect? = none := by
    rw [defect?_eq_none_iff, isAllocated_iff]
    exact ⟨hpages, hroot⟩
  obtain ⟨hwrite, hlong, hstart⟩ := writeTo_eq_ok hsize m
  refine ⟨overwrite b 0 m.image, hwrite, ?_, fun i w' hi hchanged => ?_⟩
  · rw [read_of_image hlong hstart, hsound]
  -- the stored checksum lies behind both fields
  have hstored : wordAt w' 8 = checksum m.fields := by
    rw [← wordAt_of_image hstart]
    exact wordAt_congr fun k _ => hchanged.outside _ (by omega)
  have hcomputed : checksum w' ≠ checksum m.fields := by
    rw [← checksum_of_image hlong hstart]
    exact hchanged.checksum_ne (by omega)
  have hlong' : ¬ w'.size < recordSize := by
    rw [hchanged.size]
    exact Nat.not_lt.2 hlong
  rw [read, if_neg hlong']
  simp only [hstored]
  generalize (⟨⟨intAt w' 0⟩, intAt w' 4⟩ : Metadata) = found
  constructor
  · intro hchecked
    exact if_pos ⟨hchecked, hcomputed.symm⟩
  · intro hunchecked m'
    rw [if_neg fun h => h.1 hunchecked]
    split
    · rename_i hnone
      rw [Except.ok.injEq, eq_comm (a := found)]
      exact ⟨fun h => ⟨h, by rwa [h]⟩, fun h => h.1⟩
    · rename_i defect hsome
      refine iff_of_false (fun h => by cases h) fun h => ?_
      rw [← h.1, h.2] at hsome
      cases hsome

theorem read_changed_record_two_pages :
    ∃ w, writeTo (zeros 12) ⟨⟨1⟩, 2⟩ = .ok w ∧ read w = .ok ⟨⟨1⟩, 2⟩ ∧
      read (overwrite w 4 (pushInt ByteArray.empty 3)) =
        .error (.checksum (checksum (fields ⟨⟨1⟩, 2⟩))
          (checksum (overwrite w 4 (pushInt ByteArray.empty 3)))) := by
  obtain ⟨w, hwrite, hread, hchange⟩ := read_changed_record (m := ⟨⟨1⟩, 2⟩) (b := zeros 12)
    (by decide) (.inr (by decide)) (by decide)
  refine ⟨w, hwrite, hread, ?_⟩
  have hw : w = overwrite (zeros 12) 0 (image ⟨⟨1⟩, 2⟩) := by
    rw [(writeTo_eq_ok (by decide) _).1] at hwrite
    exact (Except.ok.inj hwrite).symm
  subst hw
  exact (hchange 4 _ (.inr rfl) (changedWithin_overwrite (by decide) (by decide) (by decide +kernel))).1
    (by decide +kernel)

/-- **A record whose checksum is zero**: its page count was changed from 1579711087 to 4, and the result
is read. -/
theorem read_changed_unchecked :
    defect? ⟨⟨3⟩, 1579711087⟩ = none ∧
      ∃ w w', writeTo (zeros 12) ⟨⟨3⟩, 1579711087⟩ = .ok w ∧ ChangedWithin 4 w w' ∧
        read w' = .ok ⟨⟨3⟩, 4⟩ := by
  refine ⟨by decide, overwrite (zeros 12) 0 (image ⟨⟨3⟩, 1579711087⟩),
    overwrite (overwrite (zeros 12) 0 (image ⟨⟨3⟩, 1579711087⟩)) 4 (pushInt ByteArray.empty 4),
    (writeTo_eq_ok (by decide) _).1, ?_, ?_⟩
  · exact changedWithin_overwrite (by decide) (by decide) (by decide +kernel)
  · decide +kernel

end Metadata

end RowIndex
