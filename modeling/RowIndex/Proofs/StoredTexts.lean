import RowIndex.Proofs.Histories

/-! # Texts in slots

A slot holds the bytes of a text that was cut to fit, and zeros behind them. None of the text's own
bytes is zero, so the slot is read as that text, and storing it again gives the same slot.

* **`ne_zero_of_mem_utf8EncodeChar`** — the bytes of a character other than NUL are not zero.
* **`RowId.text_ofBytes`** — a slot is read as the text before its padding.
* **`RowId.storable_storable`** — what could be stored of a text can be stored as a whole.
* **`RowId.text_ofText`** — a text is read as what could be stored of it.
* **`RowId.IsStored`** — a slot that its own text is stored in; `isStored_ofText`, `isStored_cleared`. -/

namespace RowIndex

/-! ## (1) Bytes without a zero -/

/-- **The bytes of a character other than NUL are not zero.** -/
theorem ne_zero_of_mem_utf8EncodeChar {c : Char} (h : c ≠ '\x00') {b : UInt8}
    (hb : b ∈ String.utf8EncodeChar c) : b ≠ 0 := by
  have hpos : 0 < c.val.toNat := by
    refine Nat.pos_of_ne_zero fun hzero => h ?_
    exact Char.ext (UInt32.toNat_inj.1 hzero)
  revert hb
  -- only a character of one byte can have a byte without its top bit
  fun_cases String.utf8EncodeChar c with
  | case1 v hv =>
    rw [List.mem_singleton]
    rintro rfl
    exact ofNat_ne_zero hpos (by omega)
  | case2 v =>
    simp only [List.mem_cons, List.not_mem_nil, or_false]
    rintro (rfl | rfl) <;> exact ofNat_ne_zero (by omega) (by omega)
  | case3 v =>
    simp only [List.mem_cons, List.not_mem_nil, or_false]
    rintro (rfl | rfl | rfl) <;> exact ofNat_ne_zero (by omega) (by omega)
  | case4 v =>
    simp only [List.mem_cons, List.not_mem_nil, or_false]
    rintro (rfl | rfl | rfl | rfl) <;> exact ofNat_ne_zero (by omega) (by omega)

/-- The bytes of a text without NUL are not zero. -/
theorem ne_zero_of_mem_toUTF8 {cs : List Char} (h : '\x00' ∉ cs) {b : UInt8}
    (hb : b ∈ (String.ofList cs).toUTF8.data.toList) : b ≠ 0 := by
  rw [String.toUTF8_eq_toByteArray, String.toByteArray_ofList, List.utf8Encode,
    List.data_toByteArray, List.mem_flatMap] at hb
  obtain ⟨c, hc, hb⟩ := hb
  exact ne_zero_of_mem_utf8EncodeChar (by rintro rfl; exact h hc) hb

/-- A byte string that is no longer than wanted is padded with zeros. -/
theorem Bytes.fit_of_size_le {n : Nat} {b : ByteArray} (h : b.size ≤ n) :
    fit n b = b ++ zeros (n - b.size) := by
  have hwhole : b.extract 0 n = b := by
    apply ByteArray.ext
    rw [ByteArray.data_extract]
    exact Array.extract_eq_self_of_le h
  rw [fit, hwhole]

theorem Bytes.toList_filled (n : Nat) (v : UInt8) :
    (filled n v).data.toList = List.replicate n v := by
  induction n with
  | zero => rfl
  | succ n ih => rw [filled_succ, ByteArray.data_push, Array.toList_push, ih, List.replicate_succ']

namespace RowId

/-! ## (2) Reading a slot -/

/-- **A slot is read as the text before its padding.** -/
theorem text_ofBytes {b : ByteArray} (hsize : b.size ≤ Layout.valueSize)
    (hzero : ∀ v ∈ b.data.toList, v ≠ 0) : (ofBytes b).text = Utf8.decodeLossy b := by
  have hslot : (ofBytes b).bytes = b ++ Bytes.zeros (Layout.valueSize - b.size) :=
    Bytes.fit_of_size_le hsize
  -- the first zero byte is that of the padding
  have hlength : (ofBytes b).textLength = b.size := by
    rw [textLength, hslot, ByteArray.toList_data_append,
      List.takeWhile_append_of_pos fun v hv => decide_eq_true (hzero v hv), Bytes.zeros,
      Bytes.toList_filled, List.takeWhile_replicate, if_neg (by decide), List.append_nil]
    rfl
  rw [text, hlength, hslot, ByteArray.extract_append_eq_left rfl]

/-! ## (3) What can be stored -/

/-- What can be stored holds no NUL. -/
theorem not_mem_storable (room : Nat) (cs : List Char) : '\x00' ∉ storable room cs := by
  induction cs generalizing room with
  | nil => exact List.not_mem_nil
  | cons c cs ih =>
    rw [storable_cons]
    split
    · exact List.not_mem_nil
    · rename_i hroom
      rw [List.mem_cons, not_or]
      exact ⟨fun hc => hroom (Or.inl hc.symm), ih _⟩

/-- What can be stored fits. -/
theorem size_storable_le (room : Nat) (cs : List Char) :
    (storable room cs).utf8Encode.size ≤ room := by
  induction cs generalizing room with
  | nil => exact Nat.zero_le room
  | cons c cs ih =>
    rw [storable_cons]
    split
    · exact Nat.zero_le room
    · rename_i hroom
      have hrest := ih (room - c.utf8Size)
      rw [List.utf8Encode_cons, ByteArray.size_append, Utf8.size_utf8Encode_singleton]
      omega

/-- **What could be stored of a text can be stored as a whole.** -/
theorem storable_storable (room : Nat) (cs : List Char) :
    storable room (storable room cs) = storable room cs := by
  induction cs generalizing room with
  | nil => rfl
  | cons c cs ih =>
    rw [storable_cons]
    split
    · rfl
    · rename_i hroom
      rw [storable_cons, if_neg hroom, ih]

/-- **A text is read as what could be stored of it.** -/
theorem text_ofText (text : String) :
    (ofText text).text = String.ofList (storable Layout.valueSize text.toList) := by
  have hsize := size_storable_le Layout.valueSize text.toList
  rw [← String.toByteArray_ofList, ← String.toUTF8_eq_toByteArray] at hsize
  rw [ofText, text_ofBytes hsize fun v hv => ne_zero_of_mem_toUTF8 (not_mem_storable _ _) hv,
    Utf8.decodeLossy_toUTF8]

/-! ## (4) Slots and their texts -/

/-- **The text of a slot is stored in that slot.** -/
def IsStored (value : RowId) : Prop :=
  ofText value.text = value

/-- What a text is stored in. -/
theorem isStored_ofText (text : String) : (ofText text).IsStored := by
  rw [IsStored, text_ofText, ofText, String.toList_ofList, storable_storable, ofText]

/-- The empty slot is what the empty text is stored in. -/
theorem isStored_tombstone : tombstone.IsStored :=
  isStored_ofText ""

theorem isStored_cleared {value : RowId} (h : value.IsStored) (targets : List RowId) :
    (value.cleared targets).IsStored := by
  rw [cleared]
  split
  · exact isStored_tombstone
  · exact h

/-- Slots with the same text are the same. -/
theorem IsStored.eq_of_text_eq {a b : RowId} (ha : a.IsStored) (hb : b.IsStored)
    (h : a.text = b.text) : a = b := by
  rw [← ha, h, hb]

/-- **Just the empty slot has the empty text.** -/
theorem IsStored.text_eq_empty_iff {value : RowId} (h : value.IsStored) :
    value.text = "" ↔ value.isTombstone := by
  constructor
  · intro htext
    rw [← h, htext]
    rfl
  · intro htombstone
    rw [← h, isTombstone_ofText] at htombstone
    -- a text that does not show has no part that can be stored
    rw [← h, text_ofText]
    unfold shows at htombstone
    cases hchars : value.text.toList with
    | nil => rfl
    | cons c cs =>
      rw [hchars] at htombstone
      have hc : c = '\x00' := by simpa using htombstone
      rw [storable_cons, if_pos (Or.inl hc)]

end RowId

end RowIndex
