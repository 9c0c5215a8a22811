import RowIndex.Node.Image

/-! # Nodes survive their pages

Writing a node to a page and reading the page back gives the same node, and whatever is read from a
page fits in one.

* **`byteAt_image_of_lt`**, `byteAt_image_payload` — the two regions of a node's page.
* **`intAt_foldl_pushInt`** — a row of appended words is read back place by place.
* **`decode_image`** — a node that fits in a page is read back from it.
* **`defect?_of_decode`** — a node that was read from a page fits in one. -/

namespace RowIndex

/-! ## (1) Bytes and words at a place -/

namespace Bytes

theorem byteAt_push (b : ByteArray) (v : UInt8) (i : Nat) :
    byteAt (b.push v) i = if i = b.size then v else byteAt b i := by
  rw [← ByteArray.append_toByteArray_singleton, byteAt_append]
  by_cases hlt : i < b.size
  · rw [if_pos hlt, if_neg (by omega)]
  · rw [if_neg hlt]
    by_cases heq : i = b.size
    · rw [if_pos heq, heq, Nat.sub_self]
      rfl
    · rw [if_neg heq, byteAt_of_ge (b := b) (by omega)]
      exact byteAt_of_ge (by rw [List.size_toByteArray, List.length_singleton]; omega)

/-- Zeros read as zero, inside and past the end. -/
@[simp] theorem byteAt_zeros (n i : Nat) : byteAt (zeros n) i = 0 := by
  unfold zeros
  induction n with
  | zero => exact byteAt_of_ge (Nat.zero_le i)
  | succ n ih =>
    rw [filled_succ, byteAt_push, ih, ite_self]

/-- **A cut or padded string reads as before** up to its new length. -/
theorem byteAt_fit (n : Nat) (b : ByteArray) (i : Nat) :
    byteAt (fit n b) i = if i < n then byteAt b i else 0 := by
  rw [fit, byteAt_append, byteAt_extract, byteAt_zeros, ByteArray.size_extract]
  by_cases hn : i < n
  · by_cases hb : i < b.size
    · rw [if_pos (by omega), if_pos (by omega), if_pos hn, Nat.zero_add]
    · rw [if_neg (by omega), if_pos hn, byteAt_of_ge (by omega)]
  · rw [if_neg (by omega), if_neg hn]

end Bytes

namespace LittleEndian

open Bytes

/-- A word depends on its four bytes only. -/
theorem wordAt_congr {a b : ByteArray} {i j : Nat}
    (h : ∀ k, k < 4 → byteAt a (i + k) = byteAt b (j + k)) : wordAt a i = wordAt b j := by
  have h₀ := h 0 (by omega)
  rw [Nat.add_zero, Nat.add_zero] at h₀
  rw [wordAt, wordAt, h₀, h 1 (by omega), h 2 (by omega), h 3 (by omega)]

/-- A signed word depends on its four bytes only. -/
theorem intAt_congr {a b : ByteArray} {i j : Nat}
    (h : ∀ k, k < 4 → byteAt a (i + k) = byteAt b (j + k)) : intAt a i = intAt b j :=
  congrArg UInt32.toInt32 (wordAt_congr h)

/-- Appending a row of words keeps what stands before it. -/
theorem foldl_pushInt_eq_append (vs : List Int32) (b : ByteArray) :
    vs.foldl pushInt b = b ++ vs.foldl pushInt ByteArray.empty := by
  induction vs generalizing b with
  | nil => exact ByteArray.append_empty.symm
  | cons v vs ih =>
    rw [List.foldl_cons, List.foldl_cons, ih (pushInt b v), ih (pushInt ByteArray.empty v),
      pushInt_eq_append b v, ByteArray.append_assoc]

/-- Appending a row of words keeps the bytes before it. -/
theorem byteAt_foldl_pushInt_of_lt (vs : List Int32) {b : ByteArray} {i : Nat} (h : i < b.size) :
    byteAt (vs.foldl pushInt b) i = byteAt b i := by
  rw [foldl_pushInt_eq_append, byteAt_append, if_pos h]

/-- **A row of appended words is read back place by place.** -/
theorem intAt_foldl_pushInt (vs : List Int32) (b : ByteArray) (i : Nat) (h : i < vs.length) :
    intAt (vs.foldl pushInt b) (b.size + i * 4) = vs[i] := by
  induction vs generalizing b i with
  | nil => exact absurd h (Nat.not_lt_zero i)
  | cons v vs ih =>
    rw [List.foldl_cons]
    cases i with
    | zero =>
      rw [foldl_pushInt_eq_append, Nat.zero_mul, Nat.add_zero]
      exact intAt_pushInt b v _
    | succ i =>
      have hplace : b.size + (i + 1) * 4 = (pushInt b v).size + i * 4 := by
        rw [size_pushInt]
        omega
      rw [hplace]
      exact ih _ i (Nat.lt_of_succ_lt_succ h)

/-- Appending a byte keeps the words before it. -/
theorem intAt_push_of_le {b : ByteArray} {i : Nat} (h : i + 4 ≤ b.size) (v : UInt8) :
    intAt (b.push v) i = intAt b i := by
  apply intAt_congr
  intro k hk
  rw [byteAt_push, if_neg (by omega)]

/-- Appending a word keeps the words before it. -/
theorem intAt_pushInt_of_le {b : ByteArray} {i : Nat} (h : i + 4 ≤ b.size) (v : Int32) :
    intAt (pushInt b v) i = intAt b i := by
  apply intAt_congr
  intro k hk
  rw [pushInt_eq_append, byteAt_append, if_pos (by omega)]

/-- The word appended last is read where it starts. -/
theorem intAt_pushInt_self (b : ByteArray) (v : Int32) : intAt (pushInt b v) b.size = v := by
  have h := intAt_pushInt b v ByteArray.empty
  rwa [ByteArray.append_empty] at h

end LittleEndian

/-! ## (2) The regions of a node's page -/

namespace NodeHeader

open Bytes LittleEndian

/-- A header depends on its sixteen bytes only. -/
theorem read_congr {a b : ByteArray} (h : ∀ i, i < 16 → byteAt a i = byteAt b i) :
    read a = read b := by
  have hword : ∀ i, i + 4 ≤ 16 → intAt a i = intAt b i := by
    intro i hi
    apply intAt_congr
    intro k hk
    exact h (i + k) (by omega)
  simp only [read]
  rw [hword 0 (by omega), hword 5 (by omega), hword 9 (by omega), h 4 (by omega)]

/-- **An appended header is read back.** -/
theorem read_push (h : NodeHeader) : read (push ByteArray.empty h) = h := by
  have hid : intAt (push ByteArray.empty h) 0 = h.id.val := by
    rw [push, intAt_push_of_le (by simp), intAt_push_of_le (by simp), intAt_push_of_le (by simp),
      intAt_pushInt_of_le (by simp), intAt_pushInt_of_le (by simp), intAt_push_of_le (by simp)]
    exact intAt_pushInt_self ByteArray.empty h.id.val
  have hflag : byteAt (push ByteArray.empty h) 4 = h.leafFlag := by
    simp only [push, byteAt_push, pushInt_eq_append (ByteArray.push _ _),
      pushInt_eq_append (_ ++ _), byteAt_append, ByteArray.size_append, ByteArray.size_push,
      size_pushInt, ByteArray.size_empty]
    simp
  have hcount : intAt (push ByteArray.empty h) 5 = h.keyCount := by
    rw [push, intAt_push_of_le (by simp), intAt_push_of_le (by simp), intAt_push_of_le (by simp),
      intAt_pushInt_of_le (by simp)]
    have := intAt_pushInt_self ((pushInt ByteArray.empty h.id.val).push h.leafFlag) h.keyCount
    simpa using this
  have hnext : intAt (push ByteArray.empty h) 9 = h.next.val := by
    rw [push, intAt_push_of_le (by simp), intAt_push_of_le (by simp), intAt_push_of_le (by simp)]
    have := intAt_pushInt_self
      (pushInt ((pushInt ByteArray.empty h.id.val).push h.leafFlag) h.keyCount) h.next.val
    simpa using this
  rw [read, hid, hflag, hcount, hnext]

end NodeHeader

namespace Node

open Bytes LittleEndian

/-- The bytes of the header and the keys. -/
def head (n : Node) : ByteArray :=
  n.keys.foldl pushInt (NodeHeader.push ByteArray.empty n.header)

theorem bytes_image (n : Node) :
    n.image.bytes = fit Layout.pageSize (fit Layout.payloadOffset n.head ++ n.payload) := rfl

/-- **The front of a node's page** is its header and its keys. -/
theorem byteAt_image_of_lt (n : Node) {i : Nat} (h : i < Layout.payloadOffset) :
    byteAt n.image.bytes i = byteAt n.head i := by
  rw [bytes_image, byteAt_fit, if_pos (Nat.lt_of_lt_of_le h (by decide)), byteAt_append, size_fit,
    if_pos h, byteAt_fit, if_pos h]

/-- **The rest of a node's page** is its slots or its children. -/
theorem byteAt_image_payload (n : Node) {i : Nat} (h : Layout.payloadOffset + i < Layout.pageSize) :
    byteAt n.image.bytes (Layout.payloadOffset + i) = byteAt n.payload i := by
  rw [bytes_image, byteAt_fit, if_pos h, byteAt_append, size_fit, if_neg (by omega),
    Nat.add_sub_cancel_left]

theorem read_image (n : Node) : NodeHeader.read n.image.bytes = n.header := by
  rw [← NodeHeader.read_push n.header]
  apply NodeHeader.read_congr
  intro i hi
  rw [byteAt_image_of_lt n (Nat.lt_of_lt_of_le hi (by decide)), head]
  exact byteAt_foldl_pushInt_of_lt _ (by rw [NodeHeader.size_push]; omega)

/-- **The keys are read back**, if there are not too many of them. -/
theorem keysOf_image (n : Node) (h : n.keys.length ≤ Layout.maxKeys) :
    keysOf n.image.bytes n.keys.length = n.keys := by
  apply List.ext_getElem
  · rw [keysOf, List.length_map, List.length_range]
  · intro i _ hi
    have hplace : (NodeHeader.push ByteArray.empty n.header).size = Layout.keysOffset := by
      rw [NodeHeader.size_push]
      rfl
    have hkey := intAt_foldl_pushInt n.keys (NodeHeader.push ByteArray.empty n.header) i hi
    rw [hplace] at hkey
    simp only [keysOf, List.getElem_map, List.getElem_range]
    rw [← hkey]
    apply intAt_congr
    intro k hk
    apply byteAt_image_of_lt
    simp only [Layout.payloadOffset, Layout.keysOffset, Layout.maxKeys] at h ⊢
    omega

/-! ## (3) Slots and children -/

theorem payload_leaf (id : PageId) (keys : List Int32) (values : List RowId) (next : PageId) :
    payload ⟨id, keys, .leaf values next⟩
      = values.foldl (fun b value => b ++ value.bytes) ByteArray.empty := rfl

theorem payload_internal (id : PageId) (keys : List Int32) (children : List PageId) :
    payload ⟨id, keys, .internal children⟩
      = (children.map PageId.val).foldl pushInt ByteArray.empty :=
  List.foldl_map.symm

/-- A row of slots is read back byte by byte, whatever stands before it. -/
theorem byteAt_foldl_slots (values : List RowId) (b : ByteArray) (i j : Nat)
    (hi : i < values.length) (hj : j < Layout.valueSize) :
    byteAt (values.foldl (fun b value => b ++ value.bytes) b) (b.size + i * Layout.valueSize + j)
      = byteAt values[i].bytes j := by
  -- slots are only ever put behind what is there
  have keeps : ∀ (vs : List RowId) (b : ByteArray) (k : Nat), k < b.size →
      byteAt (vs.foldl (fun b value => b ++ value.bytes) b) k = byteAt b k := by
    intro vs
    induction vs with
    | nil => intro b k _; rfl
    | cons v vs ih =>
      intro b k hk
      rw [List.foldl_cons, ih _ k (by rw [ByteArray.size_append]; omega), byteAt_append, if_pos hk]
  induction values generalizing b i with
  | nil => exact absurd hi (Nat.not_lt_zero i)
  | cons v vs ih =>
    have hsize : (b ++ v.bytes).size = b.size + Layout.valueSize := by
      rw [ByteArray.size_append, v.size_bytes]
    rw [List.foldl_cons]
    cases i with
    | zero =>
      rw [keeps _ _ _ (by rw [hsize]; omega), byteAt_append, if_neg (by omega)]
      congr 1
      omega
    | succ i =>
      have hplace : b.size + (i + 1) * Layout.valueSize + j
          = (b ++ v.bytes).size + i * Layout.valueSize + j := by
        rw [hsize, Nat.succ_mul]
        omega
      rw [hplace]
      exact ih _ i (Nat.lt_of_succ_lt_succ hi)

/-- **The slots of a leaf are read back.** -/
theorem valuesOf_image (id : PageId) (keys : List Int32) (values : List RowId) (next : PageId)
    (h : values.length ≤ Layout.maxKeys) :
    valuesOf (image ⟨id, keys, .leaf values next⟩).bytes values.length = values := by
  apply List.ext_getElem
  · rw [valuesOf, List.length_map, List.length_range]
  · intro i _ hi
    simp only [valuesOf, List.getElem_map, List.getElem_range]
    apply RowId.ext_bytes
    apply ext_byteAt
    · rw [RowId.bytes_ofBytes, size_fit, values[i].size_bytes]
    · intro j hj
      rw [RowId.bytes_ofBytes, size_fit] at hj
      -- the slot ends before the page does, as there are not too many
      have hroom : Layout.payloadOffset + (i * Layout.valueSize + j) < Layout.pageSize := by
        simp only [Layout.maxKeys, Layout.valueSize, Layout.payloadOffset, Layout.keysOffset,
          Layout.headerSize, Layout.pageSize] at h hj ⊢
        omega
      rw [RowId.bytes_ofBytes, byteAt_fit, if_pos hj, byteAt_extract, if_pos (by omega),
        Nat.add_assoc, byteAt_image_payload _ hroom, payload_leaf]
      have := byteAt_foldl_slots values ByteArray.empty i j hi hj
      rwa [ByteArray.size_empty, Nat.zero_add] at this

/-- **The children of an internal node are read back.** -/
theorem childrenOf_image (id : PageId) (keys : List Int32) (children : List PageId)
    (h : children.length ≤ Layout.maxChildren) :
    childrenOf (image ⟨id, keys, .internal children⟩).bytes children.length = children := by
  apply List.ext_getElem
  · rw [childrenOf, List.length_map, List.length_range]
  · intro i hi' hi
    have hchild := intAt_foldl_pushInt (children.map PageId.val) ByteArray.empty i
      (by rwa [List.length_map])
    rw [ByteArray.size_empty, Nat.zero_add, List.getElem_map] at hchild
    have hword : intAt (image ⟨id, keys, .internal children⟩).bytes (Layout.payloadOffset + i * 4)
        = children[i].val := by
      rw [← hchild]
      apply intAt_congr
      intro k hk
      have hroom : Layout.payloadOffset + (i * 4 + k) < Layout.pageSize := by
        simp only [Layout.maxChildren, Layout.maxKeys, Layout.payloadOffset, Layout.keysOffset,
          Layout.headerSize, Layout.pageSize] at h ⊢
        omega
      rw [Nat.add_assoc, byteAt_image_payload _ hroom, payload_internal]
    simp only [childrenOf, List.getElem_map, List.getElem_range, hword]

/-! ## (4) The round trip -/

/-- A node fits in a page iff it has not too many keys, and slots or children to match. -/
theorem defect?_eq_none_iff (n : Node) :
    n.defect? = none ↔ n.keys.length ≤ Layout.maxKeys ∧
      match n.body with
      | .leaf values _ => values.length = n.keys.length
      | .internal children => children.length = n.keys.length + 1 := by
  simp only [defect?]
  by_cases hkeys : Layout.maxKeys < n.keys.length
  · rw [if_pos hkeys]
    constructor
    · intro h
      cases h
    · rintro ⟨h, -⟩
      omega
  · rw [if_neg hkeys]
    cases hbody : n.body with
    | leaf values next =>
      simp only [ite_eq_left_iff, reduceCtorEq, imp_false, Decidable.not_not]
      exact ⟨fun h => ⟨by omega, h⟩, fun h => h.2⟩
    | internal children =>
      simp only [ite_eq_left_iff, reduceCtorEq, imp_false, Decidable.not_not]
      exact ⟨fun h => ⟨by omega, h⟩, fun h => h.2⟩

/-- A number of keys that fits in a page is stored as it is. -/
theorem toInt_keyCount {n : Node} (h : n.keys.length ≤ Layout.maxKeys) :
    n.header.keyCount.toInt = n.keys.length := by
  rw [header, Int32.toInt_ofNat_of_lt]
  simp only [Layout.maxKeys] at h
  omega

/-- **A node that fits in a page is read back from it.** -/
theorem decode_image {n : Node} (h : n.defect? = none) : decode n.image.bytes = .ok n := by
  obtain ⟨hkeys, hbody⟩ := (defect?_eq_none_iff n).1 h
  have hcount := toInt_keyCount hkeys
  have hrange : ¬ (n.header.keyCount < 0 ∨ Int32.ofNat Layout.maxKeys < n.header.keyCount) := by
    rw [Int32.lt_iff_toInt_lt, Int32.lt_iff_toInt_lt, hcount]
    simp only [Layout.maxKeys] at hkeys
    have hmax : (Int32.ofNat Layout.maxKeys).toInt = 112 := by decide
    rw [hmax, Int32.toInt_zero]
    omega
  -- the count is stored as a signed word and read back as a length
  have hnat : n.header.keyCount.toInt.toNat = n.keys.length := by
    rw [hcount, Int.toNat_natCast]
  rw [decode, if_neg (by rw [n.image.size_bytes]; exact not_not_intro rfl), read_image]
  simp only [if_neg hrange, hnat, keysOf_image n hkeys]
  obtain ⟨id, keys, body⟩ := n
  cases body with
  | leaf values next =>
    have hvalues := valuesOf_image id keys values next (by rw [hbody]; exact hkeys)
    rw [hbody] at hvalues
    simp only [hvalues]
    rfl
  | internal children =>
    have hchildren := childrenOf_image id keys children
      (by rw [hbody]; exact Nat.succ_le_succ hkeys)
    rw [hbody] at hchildren
    simp only [hchildren]
    rfl

/-- **A node that was read from a page fits in one.** -/
theorem defect?_of_decode {b : ByteArray} {n : Node} (h : decode b = .ok n) : n.defect? = none := by
  unfold decode at h
  split at h
  · cases h
  · simp only at h
    split at h
    · cases h
    · rename_i hrange
      have hcount : (NodeHeader.read b).keyCount.toInt.toNat ≤ Layout.maxKeys := by
        rw [not_or, Int32.lt_iff_toInt_lt, Int32.lt_iff_toInt_lt] at hrange
        have hmax : (Int32.ofNat Layout.maxKeys).toInt = 112 := by decide
        rw [hmax] at hrange
        simp only [Layout.maxKeys]
        omega
      rw [defect?_eq_none_iff]
      split at h
      · injection h with h
        rw [← h]
        simpa only [keysOf, valuesOf, List.length_map, List.length_range, and_true] using hcount
      · split at h
        · injection h with h
          rw [← h]
          simpa only [keysOf, childrenOf, List.length_map, List.length_range, and_true]
            using hcount
        · cases h

end Node
end RowIndex
