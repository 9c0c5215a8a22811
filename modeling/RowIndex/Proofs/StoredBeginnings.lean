import RowIndex.Proofs.StoredTexts

/-! # What is stored of a text

A slot takes the longest beginning of a text that holds no NUL and fits. That is also what a cut among the
bytes comes to, which steps back from the last byte with room to the start of a character.

* **`RowId.Longest`** — the longest beginning of a text that can be stored; `longest_storable` says that
  it is what `storable` finds.
* **`RowId.backOff`** — stepping back to the start of a character; `ofText_eq_ofCutBytes` says that texts
  can be cut by their bytes.
* **`RowId.text_ofText_eq_iff`** — the texts that are stored as a whole.
* **`RowId.stores_longest_beginning`** — slots hold longest beginnings, and equal texts have one slot. -/

namespace RowIndex

/-- The bytes of some characters, counted. -/
theorem size_utf8Encode_eq (cs : List Char) :
    cs.utf8Encode.size = (String.ofList cs).utf8ByteSize := by
  rw [← String.toByteArray_ofList, String.size_toByteArray]

/-- A longer beginning has more bytes. -/
theorem utf8ByteSize_le_of_begins {cs ds : List Char} (h : cs <+: ds) :
    (String.ofList cs).utf8ByteSize ≤ (String.ofList ds).utf8ByteSize := by
  obtain ⟨rest, rfl⟩ := h
  rw [String.ofList_append, String.utf8ByteSize_append]
  exact Nat.le_add_right _ _

namespace RowId

/-! ## (1) The longest beginning -/

/-- **The longest beginning of a text that can be stored** in `room` bytes. -/
structure Longest (room : Nat) (text kept : String) : Prop where
  /-- The text begins with it. -/
  begins : kept.toList <+: text.toList
  /-- It holds no NUL. -/
  noNul : '\x00' ∉ kept.toList
  /-- It fits. -/
  fits : kept.utf8ByteSize ≤ room
  /-- Every other such beginning is one of its own beginnings. -/
  longest : ∀ other : String, other.toList <+: text.toList → '\x00' ∉ other.toList →
    other.utf8ByteSize ≤ room → other.toList <+: kept.toList

/-- What can be stored of a text is where it begins. -/
theorem storable_begins (room : Nat) (cs : List Char) : storable room cs <+: cs := by
  induction cs generalizing room with
  | nil => exact List.nil_prefix
  | cons c cs ih =>
    rw [storable_cons]
    split
    · exact List.nil_prefix
    · exact List.cons_prefix_cons.2 ⟨rfl, ih _⟩

/-- **No beginning that can be stored goes further.** -/
theorem begins_storable {room : Nat} {cs ds : List Char} (h : ds <+: cs) (hnul : '\x00' ∉ ds)
    (hfits : ds.utf8Encode.size ≤ room) : ds <+: storable room cs := by
  induction cs generalizing room ds with
  | nil =>
    rw [List.prefix_nil.1 h]
    exact List.nil_prefix
  | cons c cs ih =>
    cases ds with
    | nil => exact List.nil_prefix
    | cons d ds =>
      obtain ⟨rfl, hrest⟩ := List.cons_prefix_cons.1 h
      rw [List.mem_cons, not_or] at hnul
      rw [List.utf8Encode_cons, ByteArray.size_append, Utf8.size_utf8Encode_singleton] at hfits
      -- the first character is stored, and the rest has the room that it leaves
      have hfirst : ¬ (d = '\x00' ∨ room < d.utf8Size) := by
        rintro (hd | hd)
        · exact hnul.1 hd.symm
        · omega
      rw [storable_cons, if_neg hfirst]
      exact List.cons_prefix_cons.2 ⟨rfl, ih hrest hnul.2 (by omega)⟩

/-- **What can be stored of a text is its longest such beginning.** -/
theorem longest_storable (room : Nat) (text : String) :
    Longest room text (String.ofList (storable room text.toList)) where
  begins := by
    rw [String.toList_ofList]
    exact storable_begins room _
  noNul := by
    rw [String.toList_ofList]
    exact not_mem_storable room _
  fits := by
    rw [← size_utf8Encode_eq]
    exact size_storable_le room _
  longest other hbegins hnul hfits := by
    rw [String.toList_ofList]
    apply begins_storable hbegins hnul
    rwa [size_utf8Encode_eq, String.ofList_toList]

/-- A character of two bytes does not fit where one byte is left. -/
example : (ofText (String.ofList (List.replicate 31 'a' ++ ['é', 'b']))).text
    = String.ofList (List.replicate 31 'a') := by
  rw [text_ofText, String.toList_ofList]
  rfl

/-! ## (2) Cutting a text by its bytes -/

/-- **Steps back from a place among the bytes of a text** to where a character starts or the text
ends. -/
def backOff (text : String) : (place : Nat) → Nat
  | 0 => 0
  | place + 1 =>
    if String.Pos.Raw.isValid text ⟨place + 1⟩ then place + 1 else backOff text place

theorem backOff_le (text : String) (place : Nat) : backOff text place ≤ place := by
  induction place with
  | zero => exact Nat.le_refl 0
  | succ place ih =>
    unfold backOff
    split
    · exact Nat.le_refl _
    · exact Nat.le_succ_of_le ih

/-- It stops where a character starts or the text ends. -/
theorem isValid_backOff (text : String) (place : Nat) :
    String.Pos.Raw.IsValid text ⟨backOff text place⟩ := by
  induction place with
  | zero => exact String.Pos.Raw.isValid_zero
  | succ place ih =>
    unfold backOff
    split
    · rename_i hvalid
      exact String.Pos.Raw.isValid_eq_true_iff.1 hvalid
    · exact ih

/-- **It steps back no further than needed.** -/
theorem le_backOff {text : String} {i place : Nat} (hvalid : String.Pos.Raw.IsValid text ⟨i⟩)
    (hle : i ≤ place) : i ≤ backOff text place := by
  induction place with
  | zero => exact hle
  | succ place ih =>
    unfold backOff
    split
    · exact hle
    · rename_i hstep
      apply ih
      by_contra hlt
      obtain rfl : i = place + 1 := by omega
      exact hstep (String.Pos.Raw.isValid_eq_true_iff.2 hvalid)

/-- The part of a text before its first NUL. -/
def beforeNul (text : String) : String :=
  String.ofList (text.toList.takeWhile (· ≠ '\x00'))

/-- **Stores a text by its bytes**: those before the first NUL, cut where there is no more room, or at
the last character that starts before. -/
def ofCutBytes (text : String) : RowId :=
  ofBytes ((beforeNul text).toUTF8.extract 0
    (backOff (beforeNul text) (min (beforeNul text).utf8ByteSize Layout.valueSize)))

/-- A beginning without NUL lies before the first NUL. -/
theorem begins_beforeNul {text : String} {cs : List Char} (h : cs <+: text.toList)
    (hnul : '\x00' ∉ cs) : cs <+: (beforeNul text).toList := by
  obtain ⟨rest, hrest⟩ := h
  have hshown : ∀ c ∈ cs, decide (c ≠ '\x00') = true := by
    intro c hc
    exact decide_eq_true fun hc' => hnul (hc' ▸ hc)
  rw [beforeNul, String.toList_ofList, ← hrest, List.takeWhile_append_of_pos hshown]
  exact List.prefix_append _ _

/-- **The cut lies behind what can be stored.** -/
theorem backOff_beforeNul (room : Nat) (text : String) :
    backOff (beforeNul text) (min (beforeNul text).utf8ByteSize room)
      = (String.ofList (storable room text.toList)).utf8ByteSize := by
  have hkept := longest_storable room text
  have hcut := backOff_le (beforeNul text) (min (beforeNul text).utf8ByteSize room)
  apply Nat.le_antisymm
  · -- what stands before the cut is a beginning that can be stored
    obtain ⟨i, hi⟩ : ∃ i, backOff (beforeNul text) (min (beforeNul text).utf8ByteSize room)
        = (String.ofList ((beforeNul text).toList.take i)).utf8ByteSize :=
      String.Pos.Raw.isValid_iff_exists_take_toList.1 (isValid_backOff _ _)
    have hshown : (beforeNul text).toList.take i <+: text.toList.takeWhile (· ≠ '\x00') := by
      rw [beforeNul, String.toList_ofList]
      exact List.take_prefix _ _
    have hnul : '\x00' ∉ (beforeNul text).toList.take i := fun hmem => by
      have hne := List.mem_takeWhile_imp (hshown.subset hmem)
      simp at hne
    have hlongest := hkept.longest (String.ofList ((beforeNul text).toList.take i))
      (by
        rw [String.toList_ofList]
        exact hshown.trans (List.takeWhile_prefix _))
      (by rwa [String.toList_ofList])
      (by
        rw [← hi]
        exact Nat.le_trans hcut (Nat.min_le_right _ _))
    rw [String.toList_ofList, String.toList_ofList] at hlongest
    rw [hi]
    exact utf8ByteSize_le_of_begins hlongest
  · -- and behind what can be stored a character starts, or the text ends
    have hbegins := begins_beforeNul hkept.begins hkept.noNul
    rw [String.toList_ofList] at hbegins
    apply le_backOff
    · apply String.Pos.Raw.isValid_iff_exists_take_toList.2
      exact ⟨_, congrArg (fun cs => (String.ofList cs).utf8ByteSize)
        (List.prefix_iff_eq_take.1 hbegins)⟩
    · have hle := utf8ByteSize_le_of_begins hbegins
      rw [String.ofList_toList] at hle
      exact Nat.le_min.2 ⟨hle, hkept.fits⟩

/-- **Cutting a text by its bytes stores the same.** -/
theorem ofText_eq_ofCutBytes (text : String) : ofText text = ofCutBytes text := by
  obtain ⟨rest, hrest⟩ := begins_beforeNul (longest_storable Layout.valueSize text).begins
    (longest_storable Layout.valueSize text).noNul
  rw [String.toList_ofList] at hrest
  have hshown : (beforeNul text).toUTF8
      = (String.ofList (storable Layout.valueSize text.toList)).toUTF8 ++ rest.utf8Encode := by
    rw [← String.ofList_toList (s := beforeNul text), ← hrest]
    simp
  unfold ofText ofCutBytes
  rw [backOff_beforeNul, hshown, ByteArray.extract_append_eq_left]
  rw [String.toUTF8_eq_toByteArray, String.size_toByteArray]

/-! ## (3) Slots and texts -/

/-- **The bytes of a slot** are those of its text, and zeros behind them. -/
theorem bytes_ofText (text : String) :
    (ofText text).bytes = (ofText text).text.toUTF8
      ++ Bytes.zeros (Layout.valueSize - (ofText text).text.utf8ByteSize) := by
  have hsize := (longest_storable Layout.valueSize text).fits
  rw [text_ofText, ofText, bytes_ofBytes, Bytes.fit_of_size_le]
  · rfl
  · exact hsize

/-- **The texts that are stored as a whole** hold no NUL and fit. -/
theorem text_ofText_eq_iff (text : String) :
    (ofText text).text = text ↔ '\x00' ∉ text.toList ∧ text.utf8ByteSize ≤ Layout.valueSize := by
  have hkept := longest_storable Layout.valueSize text
  rw [← text_ofText] at hkept
  constructor
  · intro hwhole
    rw [hwhole] at hkept
    exact ⟨hkept.noNul, hkept.fits⟩
  · rintro ⟨hnul, hfits⟩
    have hall := hkept.longest text (List.prefix_refl _) hnul hfits
    exact String.toList_inj.1 (hkept.begins.eq_of_length_le hall.length_le)

/-- **Storing a whole text** succeeds just if all of it can be stored. -/
theorem ofWholeText_eq_ok_iff (text : String) (value : RowId) :
    ofWholeText text = .ok value ↔ (ofText text).text = text ∧ value = ofText text := by
  rw [text_ofText_eq_iff, ofWholeText]
  split
  · rename_i hnul
    exact iff_of_false (fun h => by cases h) fun h => h.1.1 hnul
  · rename_i hnul
    split
    · rename_i hlong
      exact iff_of_false (fun h => by cases h) fun h => Nat.not_le.2 hlong h.1.2
    · rename_i hfits
      rw [Except.ok.injEq, eq_comm]
      exact (and_iff_right ⟨hnul, Nat.le_of_not_lt hfits⟩).symm

/-- The texts that do not show are empty or start with NUL. -/
theorem isTombstone_ofText_iff (text : String) :
    (ofText text).isTombstone ↔ text = "" ∨ text.toList.head? = some '\x00' := by
  rw [isTombstone_ofText, ← String.toList_eq_nil_iff]
  unfold shows
  cases text.toList with
  | nil => simp
  | cons c cs => simp

/-- What is marked as deleted is the one empty slot. -/
theorem isTombstone_ofText_iff_eq (text : String) :
    (ofText text).isTombstone ↔ ofText text = tombstone := by
  constructor
  · intro hempty
    apply (isStored_ofText text).eq_of_text_eq isStored_tombstone
    rw [(isStored_ofText text).text_eq_empty_iff.2 hempty, isStored_tombstone.text_eq_empty_iff.2 rfl]
  · intro heq
    rw [heq]
    rfl

/-- **A slot holds the longest beginning of a text that can be stored**: without NUL, cut between
characters, in at most 32 bytes, with zeros behind it, so that no character is read that the text does not
have. A slot is what its own text is stored in, slots with the same text are the same, and the one empty
slot is that of the empty text and of those that start with NUL. A text is stored as a whole just if it
reads back as it was. -/
theorem stores_longest_beginning (text : String) :
    Longest 32 text (ofText text).text ∧
      (ofText text).bytes
        = (ofText text).text.toUTF8 ++ Bytes.zeros (32 - (ofText text).text.utf8ByteSize) ∧
      (Utf8.replacement ∈ (ofText text).text.toList → Utf8.replacement ∈ text.toList) ∧
      ofText text = ofCutBytes text ∧
      ofText (ofText text).text = ofText text ∧
      (∀ other, ofText text = ofText other ↔ (ofText text).text = (ofText other).text) ∧
      ((ofText text).isTombstone ↔ text = "" ∨ text.toList.head? = some '\x00') ∧
      ((ofText text).isTombstone ↔ ofText text = tombstone) ∧
      ∀ value, ofWholeText text = .ok value ↔ (ofText text).text = text ∧ value = ofText text := by
  have hkept : Longest Layout.valueSize text (ofText text).text := by
    rw [text_ofText]
    exact longest_storable Layout.valueSize text
  exact ⟨hkept, bytes_ofText text, fun h => hkept.begins.subset h, ofText_eq_ofCutBytes text,
    isStored_ofText text,
    fun other => ⟨congrArg RowId.text, (isStored_ofText text).eq_of_text_eq (isStored_ofText other)⟩,
    isTombstone_ofText_iff text, isTombstone_ofText_iff_eq text, ofWholeText_eq_ok_iff text⟩

end RowId

end RowIndex
