import RowIndex.Proofs.NodeImage

/-! # Pages and nodes determine each other

A node has one page, and a page that can be read is that page just if nothing else is written on it.

* **`LittleEndian.byteAt_eq_of_wordAt_eq`** — equal words have equal bytes.
* **`Page.writeRow_eq`** — a row of parts that are written one by one is one patch.
* **`Node.Tidy`** — a page on which all bytes are zero that no field, key, slot or child uses.
* **`Node.decode_eq_ok_iff`** — which pages are read, and as what.
* **`Node.tidy_image`**, `Node.Tidy.eq_of_decode` — the page of a node is tidy, and there is no other
  tidy page that is read as the node.
* **`Node.encodeInto_of_fits`**, `Node.encodeInto_of_defect` — a node is written field by field as its
  page, or breaks the precondition that names its defect.
* **`Node.codec_exact`** — writing and reading are exact in both directions. -/

namespace RowIndex

/-! ## (1) The bytes of a word -/

namespace LittleEndian

open Bytes

/-- **Equal words have equal bytes.** The word's value has the bytes as its digits. -/
theorem byteAt_eq_of_wordAt_eq {a b : ByteArray} {i j : Nat} (h : wordAt a i = wordAt b j) {k : Nat}
    (hk : k < 4) : byteAt a (i + k) = byteAt b (j + k) := by
  have hsum := congrArg UInt32.toNat h
  rw [toNat_wordAt, toNat_wordAt] at hsum
  -- every byte is below the base of the digits
  have ha : ∀ k, (byteAt a (i + k)).toNat < 256 := fun k => (byteAt a (i + k)).toNat_lt
  have hb : ∀ k, (byteAt b (j + k)).toNat < 256 := fun k => (byteAt b (j + k)).toNat_lt
  have ha₀ := ha 0
  have ha₁ := ha 1
  have ha₂ := ha 2
  have ha₃ := ha 3
  have hb₀ := hb 0
  have hb₁ := hb 1
  have hb₂ := hb 2
  have hb₃ := hb 3
  rw [Nat.add_zero] at ha₀ hb₀
  apply UInt8.toNat_inj.1
  match k, hk with
  | 0, _ => simp only [Nat.add_zero]; omega
  | 1, _ => omega
  | 2, _ => omega
  | 3, _ => omega

/-- Equal signed words have equal bytes. -/
theorem byteAt_eq_of_intAt_eq {a b : ByteArray} {i j : Nat} (h : intAt a i = intAt b j) {k : Nat}
    (hk : k < 4) : byteAt a (i + k) = byteAt b (j + k) :=
  byteAt_eq_of_wordAt_eq (congrArg Int32.toUInt32 h) hk

@[simp] theorem size_foldl_pushInt (vs : List Int32) (b : ByteArray) :
    (vs.foldl pushInt b).size = b.size + 4 * vs.length := by
  induction vs generalizing b with
  | nil => rfl
  | cons v vs ih =>
    rw [List.foldl_cons, ih, size_pushInt, List.length_cons]
    omega

end LittleEndian

/-- Two headers are equal when their fields are. -/
theorem NodeHeader.ext_fields {g h : NodeHeader} (hid : g.id = h.id)
    (hflag : g.leafFlag = h.leafFlag) (hcount : g.keyCount = h.keyCount)
    (hnext : g.next = h.next) : g = h := by
  cases g
  cases h
  simp_all

/-! ## (2) Patches of a page -/

namespace Page

open Bytes LittleEndian

/-- A page that is overwritten with zeros is the page without content. -/
theorem overwrite_zeros (p : Page) : p.overwrite 0 (zeros Layout.pageSize) = zero := by
  apply ext_bytes
  apply ext_byteAt (by rw [size_bytes, size_bytes])
  intro i hi
  rw [size_bytes] at hi
  have hsize : 0 + (zeros Layout.pageSize).size = Layout.pageSize := by
    rw [size_zeros, Nat.zero_add]
  rw [byteAt_overwrite _ (Nat.le_of_eq hsize), hsize, if_pos ⟨Nat.zero_le i, hi⟩, Nat.sub_zero,
    byteAt_zeros, zero, bytes_ofBytes, byteAt_fit, if_pos hi, byteAt_of_ge (Nat.zero_le i)]

/-- A patch without bytes changes nothing. -/
theorem overwrite_empty (p : Page) {i : Nat} (h : i ≤ Layout.pageSize) :
    p.overwrite i ByteArray.empty = p := by
  apply ext_bytes
  apply ext_byteAt (by rw [size_bytes, size_bytes])
  intro j _
  rw [byteAt_overwrite _ h, ByteArray.size_empty, if_neg (by omega)]

/-- **Two patches side by side** are one. -/
theorem overwrite_append (p : Page) {i : Nat} {a b : ByteArray}
    (h : i + a.size + b.size ≤ Layout.pageSize) :
    (p.overwrite i a).overwrite (i + a.size) b = p.overwrite i (a ++ b) := by
  have hsize : (a ++ b).size = a.size + b.size := ByteArray.size_append
  apply ext_bytes
  apply ext_byteAt (by rw [size_bytes, size_bytes])
  intro j _
  rw [byteAt_overwrite _ h, byteAt_overwrite _ (by omega), byteAt_overwrite _ (by omega), hsize,
    byteAt_append]
  by_cases hfirst : j < i + a.size
  · rw [if_neg (by omega)]
    by_cases hlow : i ≤ j
    · rw [if_pos ⟨hlow, hfirst⟩, if_pos (by omega), if_pos (by omega)]
    · rw [if_neg (by omega), if_neg (by omega)]
  · by_cases hsecond : j < i + a.size + b.size
    · rw [if_pos (by omega), if_pos (by omega), if_neg (by omega), Nat.sub_sub]
    · rw [if_neg (by omega), if_neg (by omega), if_neg (by omega)]

/-- The parts of a row, one behind the other. -/
theorem foldl_append_cons (part : ByteArray) (parts : List ByteArray) :
    (part :: parts).foldl (· ++ ·) ByteArray.empty
      = part ++ parts.foldl (· ++ ·) ByteArray.empty := by
  have hassoc : Std.Associative fun a b : ByteArray => a ++ b := ⟨fun _ _ _ => ByteArray.append_assoc⟩
  have hstart : ByteArray.empty ++ part = part ++ ByteArray.empty :=
    ByteArray.empty_append.trans ByteArray.append_empty.symm
  rw [List.foldl_cons, hstart]
  exact List.foldl_assoc

/-- **A row of parts of one width** is one patch, if it ends in the page. -/
theorem writeRow_eq {width : Nat} {parts : List ByteArray}
    (hwidth : ∀ part ∈ parts, part.size = width) (p : Page) {i : Nat}
    (h : i + (parts.foldl (· ++ ·) ByteArray.empty).size ≤ Layout.pageSize) :
    p.writeRow width i parts = .ok (p.overwrite i (parts.foldl (· ++ ·) ByteArray.empty)) := by
  induction parts generalizing p i with
  | nil => exact congrArg Except.ok (p.overwrite_empty (Nat.le_trans (Nat.le_add_right _ _) h)).symm
  | cons part parts ih =>
    obtain ⟨hpart, hparts⟩ := List.forall_mem_cons.1 hwidth
    rw [foldl_append_cons, ByteArray.size_append, ← Nat.add_assoc] at h
    have hroom : i + part.size ≤ Layout.pageSize := Nat.le_trans (Nat.le_add_right _ _) h
    rw [hpart] at h
    rw [writeRow, if_pos hroom, ih hparts _ h, foldl_append_cons,
      ← overwrite_append _ (by rwa [hpart]), hpart]

/-- A row of words. -/
theorem writeRow_words (p : Page) {i : Nat} {vs : List Int32}
    (h : i + (vs.foldl pushInt ByteArray.empty).size ≤ Layout.pageSize) :
    p.writeRow 4 i (vs.map (pushInt ByteArray.empty))
      = .ok (p.overwrite i (vs.foldl pushInt ByteArray.empty)) := by
  have hsizes : ∀ part ∈ vs.map (pushInt ByteArray.empty), part.size = 4 := by
    intro part hpart
    obtain ⟨v, -, rfl⟩ := List.mem_map.1 hpart
    exact size_pushInt _ _
  have happend : (fun b v => b ++ pushInt ByteArray.empty v) = pushInt := by
    funext b v
    exact (pushInt_eq_append b v).symm
  have hrow : (vs.map (pushInt ByteArray.empty)).foldl (· ++ ·) ByteArray.empty
      = vs.foldl pushInt ByteArray.empty := by
    rw [List.foldl_map, happend]
  rw [writeRow_eq hsizes p (by rwa [hrow]), hrow]

/-- A row of slots. -/
theorem writeRow_slots (p : Page) {i : Nat} {values : List RowId}
    (h : i + (values.foldl (fun b value => b ++ value.bytes) ByteArray.empty).size
      ≤ Layout.pageSize) :
    p.writeRow Layout.valueSize i (values.map RowId.bytes)
      = .ok (p.overwrite i (values.foldl (fun b value => b ++ value.bytes) ByteArray.empty)) := by
  have hsizes : ∀ part ∈ values.map RowId.bytes, part.size = Layout.valueSize := by
    intro part hpart
    obtain ⟨value, -, rfl⟩ := List.mem_map.1 hpart
    exact value.size_bytes
  have hrow : (values.map RowId.bytes).foldl (· ++ ·) ByteArray.empty
      = values.foldl (fun b value => b ++ value.bytes) ByteArray.empty := List.foldl_map
  rw [writeRow_eq hsizes p (by rwa [hrow]), hrow]

end Page

namespace Node

open Bytes LittleEndian

/-! ## (3) Pages without stray bytes -/

/-- The number of keys that a page claims. -/
def countOn (b : ByteArray) : Nat :=
  (NodeHeader.read b).keyCount.toInt.toNat

/-- **A page on which nothing stands that does not belong to its node**: the bytes that no field, key,
slot or child uses are zero, and an internal node names no next leaf. -/
structure Tidy (b : ByteArray) : Prop where
  /-- The padding at the end of the header. -/
  padding : ∀ i, 13 ≤ i → i < Layout.keysOffset → byteAt b i = 0
  /-- The rest of the key region. -/
  keys : ∀ i, Layout.keysOffset + countOn b * 4 ≤ i → i < Layout.payloadOffset → byteAt b i = 0
  /-- The rest of the page, behind the slots of a leaf. -/
  slots : (NodeHeader.read b).leafFlag = NodeHeader.leaf → ∀ i,
    Layout.payloadOffset + countOn b * Layout.valueSize ≤ i → i < Layout.pageSize → byteAt b i = 0
  /-- The rest of the page, behind the children of an internal node. -/
  children : (NodeHeader.read b).leafFlag = NodeHeader.internal → ∀ i,
    Layout.payloadOffset + (countOn b + 1) * 4 ≤ i → i < Layout.pageSize → byteAt b i = 0
  /-- The link of an internal node. -/
  next : (NodeHeader.read b).leafFlag = NodeHeader.internal → (NodeHeader.read b).next = .none

/-- **Which pages are read, and as what.** -/
theorem decode_eq_ok_iff {p : Page} {n : Node} :
    decode p.bytes = .ok n ↔
      (0 ≤ (NodeHeader.read p.bytes).keyCount.toInt ∧
        (NodeHeader.read p.bytes).keyCount.toInt ≤ Layout.maxKeys) ∧
      n.id = (NodeHeader.read p.bytes).id ∧ n.keys = keysOf p.bytes (countOn p.bytes) ∧
      ((NodeHeader.read p.bytes).leafFlag = NodeHeader.leaf ∧
          n.body = .leaf (valuesOf p.bytes (countOn p.bytes)) (NodeHeader.read p.bytes).next ∨
        (NodeHeader.read p.bytes).leafFlag = NodeHeader.internal ∧
          n.body = .internal (childrenOf p.bytes (countOn p.bytes + 1))) := by
  have hmax : (Int32.ofNat Layout.maxKeys).toInt = Layout.maxKeys := by decide
  rw [decode, if_neg (by rw [p.size_bytes]; exact not_not_intro rfl)]
  simp only
  by_cases hrange : (NodeHeader.read p.bytes).keyCount < 0 ∨
      Int32.ofNat Layout.maxKeys < (NodeHeader.read p.bytes).keyCount
  · rw [if_pos hrange]
    rw [Int32.lt_iff_toInt_lt, Int32.lt_iff_toInt_lt, Int32.toInt_zero, hmax] at hrange
    refine iff_of_false (by simp) fun h => ?_
    omega
  · rw [if_neg hrange]
    rw [Int32.lt_iff_toInt_lt, Int32.lt_iff_toInt_lt, Int32.toInt_zero, hmax] at hrange
    have hcount : 0 ≤ (NodeHeader.read p.bytes).keyCount.toInt ∧
        (NodeHeader.read p.bytes).keyCount.toInt ≤ Layout.maxKeys := by omega
    have hcountOn : (NodeHeader.read p.bytes).keyCount.toInt.toNat = countOn p.bytes := rfl
    obtain ⟨id, keys, body⟩ := n
    rw [hcountOn, and_iff_right hcount]
    by_cases hleaf : (NodeHeader.read p.bytes).leafFlag = NodeHeader.leaf
    · -- the flag of a leaf is not that of an internal node
      have hflags : NodeHeader.leaf ≠ NodeHeader.internal := by decide
      simp [hleaf, hflags, eq_comm]
    · by_cases hinternal : (NodeHeader.read p.bytes).leafFlag = NodeHeader.internal
      · have hflags : NodeHeader.internal ≠ NodeHeader.leaf := by decide
        simp [hinternal, hflags, eq_comm]
      · simp [hleaf, hinternal]

/-! ## (4) The page of a node is tidy -/

/-- The padding of an appended header is zero. -/
theorem byteAt_push_of_padding (h : NodeHeader) {i : Nat} (hlow : 13 ≤ i) (hhigh : i < 16) :
    byteAt (NodeHeader.push ByteArray.empty h) i = 0 := by
  have hfields : (pushInt (pushInt ((pushInt ByteArray.empty h.id.val).push h.leafFlag) h.keyCount)
      h.next.val).size = 13 := by
    simp
  rw [NodeHeader.push, byteAt_push, byteAt_push, byteAt_push, ByteArray.size_push,
    ByteArray.size_push, hfields]
  -- the last three bytes are pushed one by one
  obtain rfl | rfl | rfl : i = 13 ∨ i = 14 ∨ i = 15 := by omega
  all_goals rfl

theorem size_head (n : Node) : n.head.size = Layout.keysOffset + n.keys.length * 4 := by
  rw [head, size_foldl_pushInt, NodeHeader.size_push, ByteArray.size_empty, Nat.mul_comm]

theorem size_foldl_slots (values : List RowId) (b : ByteArray) :
    (values.foldl (fun b value => b ++ value.bytes) b).size
      = b.size + values.length * Layout.valueSize := by
  induction values generalizing b with
  | nil => simp
  | cons v vs ih =>
    rw [List.foldl_cons, ih, ByteArray.size_append, v.size_bytes, List.length_cons, Nat.succ_mul]
    omega

/-- The slots or the children of a node that fits take the bytes that its keys ask for. -/
theorem size_payload {n : Node} (h : n.defect? = none) :
    n.payload.size =
      if n.isLeaf then n.keys.length * Layout.valueSize else (n.keys.length + 1) * 4 := by
  have hbody := ((defect?_eq_none_iff n).1 h).2
  obtain ⟨id, keys, ⟨values, next⟩ | children⟩ := n
  · rw [payload_leaf, size_foldl_slots, ByteArray.size_empty, Nat.zero_add, hbody]
    rfl
  · rw [payload_internal, size_foldl_pushInt, ByteArray.size_empty, Nat.zero_add, List.length_map,
      hbody, Nat.mul_comm]
    rfl

/-- The flag in a node's header tells whether it is a leaf. -/
theorem leafFlag_header_eq_leaf_iff (n : Node) :
    n.header.leafFlag = NodeHeader.leaf ↔ n.isLeaf = true := by
  have hflags : NodeHeader.internal ≠ NodeHeader.leaf := by decide
  simp [header, hflags]

theorem leafFlag_header_eq_internal_iff (n : Node) :
    n.header.leafFlag = NodeHeader.internal ↔ n.isLeaf = false := by
  have hflags : NodeHeader.leaf ≠ NodeHeader.internal := by decide
  simp [header, hflags]

/-- Behind the slots or the children, a node's page is zero. -/
theorem byteAt_image_of_payload_le (n : Node) {i : Nat}
    (hlow : Layout.payloadOffset + n.payload.size ≤ i) (hhigh : i < Layout.pageSize) :
    byteAt n.image.bytes i = 0 := by
  obtain ⟨j, rfl⟩ := Nat.exists_eq_add_of_le (Nat.le_trans (Nat.le_add_right _ _) hlow)
  rw [byteAt_image_payload n hhigh, byteAt_of_ge (by omega)]

/-- **The page of a node is tidy.** -/
theorem tidy_image {n : Node} (h : n.defect? = none) : Tidy n.image.bytes := by
  have hcount : countOn n.image.bytes = n.keys.length := by
    rw [countOn, read_image, toInt_keyCount ((defect?_eq_none_iff n).1 h).1, Int.toNat_natCast]
  have hpayload := size_payload h
  constructor
  case padding =>
    intro i hlow hhigh
    rw [byteAt_image_of_lt n (Nat.lt_trans hhigh (by decide)), head,
      byteAt_foldl_pushInt_of_lt _ (by rwa [NodeHeader.size_push])]
    exact byteAt_push_of_padding n.header hlow hhigh
  case keys =>
    intro i hlow hhigh
    rw [hcount, ← size_head] at hlow
    rw [byteAt_image_of_lt n hhigh, byteAt_of_ge hlow]
  case slots =>
    intro hflag i hlow hhigh
    rw [read_image, leafFlag_header_eq_leaf_iff] at hflag
    rw [if_pos hflag] at hpayload
    rw [hcount, ← hpayload] at hlow
    exact byteAt_image_of_payload_le n hlow hhigh
  case children =>
    intro hflag i hlow hhigh
    rw [read_image, leafFlag_header_eq_internal_iff] at hflag
    rw [if_neg (by rw [hflag]; exact Bool.false_ne_true)] at hpayload
    rw [hcount, ← hpayload] at hlow
    exact byteAt_image_of_payload_le n hlow hhigh
  case next =>
    intro hflag
    rw [read_image, leafFlag_header_eq_internal_iff] at hflag
    rw [read_image]
    obtain ⟨id, keys, ⟨values, next⟩ | children⟩ := n
    · cases hflag
    · rfl

/-! ## (5) One tidy page for each node -/

/-- Headers that are read alike have the same bytes up to the padding. -/
theorem byteAt_eq_of_read_eq {a b : ByteArray} (h : NodeHeader.read a = NodeHeader.read b) {i : Nat}
    (hi : i < 13) : byteAt a i = byteAt b i := by
  have hid : intAt a 0 = intAt b 0 := congrArg (fun h => h.id.val) h
  have hcount : intAt a 5 = intAt b 5 := congrArg (fun h => h.keyCount) h
  have hnext : intAt a 9 = intAt b 9 := congrArg (fun h => h.next.val) h
  by_cases hi₁ : i < 4
  · have := byteAt_eq_of_intAt_eq hid hi₁
    rwa [Nat.zero_add] at this
  by_cases hi₂ : i = 4
  · rw [hi₂]
    exact congrArg (fun h => h.leafFlag) h
  by_cases hi₃ : i < 9
  · have := byteAt_eq_of_intAt_eq hcount (k := i - 5) (by omega)
    rwa [Nat.add_sub_cancel' (by omega)] at this
  · have := byteAt_eq_of_intAt_eq hnext (k := i - 9) (by omega)
    rwa [Nat.add_sub_cancel' (by omega)] at this

/-- A place in a row of parts of one width lies in one of the parts. -/
theorem exists_part {start width count i : Nat} (hlow : start ≤ i)
    (hhigh : i < start + count * width) :
    ∃ j k, j < count ∧ k < width ∧ i = start + j * width + k := by
  have hpos : 0 < width := Nat.pos_of_ne_zero fun hzero => by simp [hzero] at hhigh; omega
  refine ⟨(i - start) / width, (i - start) % width, ?_, Nat.mod_lt _ hpos, ?_⟩
  · exact Nat.div_lt_of_lt_mul (by rw [Nat.mul_comm]; omega)
  · rw [Nat.add_assoc, Nat.div_add_mod', Nat.add_sub_cancel' hlow]

/-- Rows of words that are read alike have the same bytes. -/
theorem byteAt_eq_of_row {a b : ByteArray} {start count : Nat}
    (h : ∀ j, j < count → intAt a (start + j * 4) = intAt b (start + j * 4)) {i : Nat}
    (hlow : start ≤ i) (hhigh : i < start + count * 4) : byteAt a i = byteAt b i := by
  obtain ⟨j, k, hj, hk, rfl⟩ := exists_part hlow hhigh
  exact byteAt_eq_of_intAt_eq (h j hj) hk

/-- Rows of slots that are read alike have the same bytes. -/
theorem byteAt_eq_of_valuesOf_eq {a b : ByteArray} {count : Nat}
    (h : valuesOf a count = valuesOf b count) {i : Nat} (hlow : Layout.payloadOffset ≤ i)
    (hhigh : i < Layout.payloadOffset + count * Layout.valueSize) : byteAt a i = byteAt b i := by
  obtain ⟨j, k, hj, hk, rfl⟩ := exists_part hlow hhigh
  have hslot := congrArg (·[j]?) h
  simp only [valuesOf, List.getElem?_map, List.getElem?_range hj, Option.map_some,
    Option.some.injEq] at hslot
  have hbyte := congrArg (fun r : RowId => byteAt r.bytes k) hslot
  simp only [RowId.bytes_ofBytes, byteAt_fit, byteAt_extract, if_pos hk,
    if_pos (Nat.add_lt_add_left hk _)] at hbyte
  exact hbyte

/-- Tidy pages that are read as one node have the same header. -/
theorem Tidy.read_eq {p q : Page} {n : Node} (hp : Tidy p.bytes) (hq : Tidy q.bytes)
    (hpn : decode p.bytes = .ok n) (hqn : decode q.bytes = .ok n) :
    NodeHeader.read p.bytes = NodeHeader.read q.bytes := by
  obtain ⟨⟨hp₀, -⟩, hpid, hpkeys, hpbody⟩ := decode_eq_ok_iff.1 hpn
  obtain ⟨⟨hq₀, -⟩, hqid, hqkeys, hqbody⟩ := decode_eq_ok_iff.1 hqn
  -- the node has as many keys as both headers say
  have hcount : (NodeHeader.read p.bytes).keyCount = (NodeHeader.read q.bytes).keyCount := by
    have hlen := congrArg List.length (hpkeys.symm.trans hqkeys)
    rw [keysOf, keysOf, List.length_map, List.length_map, List.length_range, List.length_range,
      countOn, countOn] at hlen
    exact Int32.toInt_inj.1 (by omega)
  have hid := hpid.symm.trans hqid
  rcases hpbody with ⟨hpflag, hpbody⟩ | ⟨hpflag, hpbody⟩ <;>
    rcases hqbody with ⟨hqflag, hqbody⟩ | ⟨hqflag, hqbody⟩ <;>
    have hbodies := hpbody.symm.trans hqbody
  · exact NodeHeader.ext_fields hid (hpflag.trans hqflag.symm) hcount (NodeBody.leaf.inj hbodies).2
  · cases hbodies
  · cases hbodies
  · exact NodeHeader.ext_fields hid (hpflag.trans hqflag.symm) hcount
      ((hp.next hpflag).trans (hq.next hqflag).symm)

/-- **There is one tidy page only that is read as a node.** -/
theorem Tidy.eq_of_decode {p q : Page} {n : Node} (hp : Tidy p.bytes) (hq : Tidy q.bytes)
    (hpn : decode p.bytes = .ok n) (hqn : decode q.bytes = .ok n) : p = q := by
  have hheader := hp.read_eq hq hpn hqn
  have hcount : countOn q.bytes = countOn p.bytes := by rw [countOn, countOn, hheader]
  obtain ⟨⟨_, hmax⟩, -, hpkeys, hpbody⟩ := decode_eq_ok_iff.1 hpn
  obtain ⟨-, -, hqkeys, hqbody⟩ := decode_eq_ok_iff.1 hqn
  have hqkeysTidy := hq.keys
  have hqslots := hq.slots
  have hqchildren := hq.children
  rw [hcount] at hqkeys hqbody hqkeysTidy hqslots hqchildren
  rw [← hheader] at hqbody hqslots hqchildren
  apply Page.ext_bytes
  apply ext_byteAt (p.size_bytes.trans q.size_bytes.symm)
  intro i hi
  rw [p.size_bytes] at hi
  by_cases hfields : i < 13
  · exact byteAt_eq_of_read_eq hheader hfields
  by_cases hpadding : i < Layout.keysOffset
  · rw [hp.padding i (by omega) hpadding, hq.padding i (by omega) hpadding]
  by_cases hkeys : i < Layout.keysOffset + countOn p.bytes * 4
  · refine byteAt_eq_of_row (fun j hj => ?_) (Nat.le_of_not_lt hpadding) hkeys
    have hkey := congrArg (·[j]?) (hpkeys.symm.trans hqkeys)
    simpa [keysOf, hj] using hkey
  by_cases hregion : i < Layout.payloadOffset
  · rw [hp.keys i (by omega) hregion, hqkeysTidy i (by omega) hregion]
  have hlow := Nat.le_of_not_lt hregion
  rcases hpbody with ⟨hflag, hpbody⟩ | ⟨hflag, hpbody⟩
  · -- a leaf: its slots, and what lies behind them
    by_cases hslot : i < Layout.payloadOffset + countOn p.bytes * Layout.valueSize
    · rcases hqbody with ⟨-, hqbody⟩ | ⟨-, hqbody⟩
      · exact byteAt_eq_of_valuesOf_eq (NodeBody.leaf.inj (hpbody.symm.trans hqbody)).1 hlow hslot
      · cases hpbody.symm.trans hqbody
    · rw [hp.slots hflag i (Nat.le_of_not_lt hslot) hi, hqslots hflag i (Nat.le_of_not_lt hslot) hi]
  · -- an internal node: its children, and what lies behind them
    by_cases hchild : i < Layout.payloadOffset + (countOn p.bytes + 1) * 4
    · rcases hqbody with ⟨-, hqbody⟩ | ⟨-, hqbody⟩
      · cases hpbody.symm.trans hqbody
      · refine byteAt_eq_of_row (fun j hj => ?_) hlow hchild
        have hword := congrArg (·[j]?) (NodeBody.internal.inj (hpbody.symm.trans hqbody))
        simpa [childrenOf, hj] using hword
    · rw [hp.children hflag i (Nat.le_of_not_lt hchild) hi,
        hqchildren hflag i (Nat.le_of_not_lt hchild) hi]

/-! ## (6) Writing in place -/

/-- The header and the keys take no byte of the payload. -/
theorem size_head_le {n : Node} (h : n.keys.length ≤ Layout.maxKeys) :
    n.head.size ≤ Layout.payloadOffset := by
  rw [size_head]
  simp only [Layout.keysOffset, Layout.payloadOffset, Layout.maxKeys] at *
  omega

/-- The payload ends in the page. -/
theorem payload_le {n : Node} (h : n.defect? = none) :
    Layout.payloadOffset + n.payload.size ≤ Layout.pageSize := by
  have hkeys := ((defect?_eq_none_iff n).1 h).1
  rw [size_payload h]
  simp only [Layout.payloadOffset, Layout.keysOffset, Layout.headerSize, Layout.maxKeys,
    Layout.valueSize, Layout.pageSize] at *
  split <;> omega

/-- **The header and the keys are one patch** over a page without content. -/
theorem writeHead_eq {n : Node} (h : n.keys.length ≤ Layout.maxKeys) (p : Page) :
    n.writeHead p = .ok (Page.zero.overwrite 0 n.head) := by
  have hhead : n.head = NodeHeader.push ByteArray.empty n.header
      ++ n.keys.foldl pushInt ByteArray.empty := foldl_pushInt_eq_append _ _
  have hheader : (NodeHeader.push ByteArray.empty n.header).size = Layout.keysOffset :=
    NodeHeader.size_push _ _
  have hfront : Layout.keysOffset + (n.keys.foldl pushInt ByteArray.empty).size ≤ Layout.pageSize := by
    have hle := size_head_le h
    rw [hhead, ByteArray.size_append, hheader] at hle
    exact Nat.le_trans hle (by decide)
  have hlong : ¬ Page.zero.bytes.size < Layout.headerSize := by
    rw [Page.size_bytes]
    decide
  rw [writeHead, Page.overwrite_zeros, NodeHeader.writeTo, if_neg hlong]
  change (Page.zero.overwrite 0 (NodeHeader.push ByteArray.empty n.header)).writeRow 4
    Layout.keysOffset (n.keys.map (pushInt ByteArray.empty)) = _
  rw [Page.writeRow_words _ hfront, hhead,
    ← Page.overwrite_append _ (by rwa [hheader, Nat.zero_add]), hheader, Nat.zero_add]

/-- **The payload is one patch**, if it matches the keys and ends in the page. -/
theorem writePayload_eq {n : Node} (h : n.defect? = none) (p : Page) :
    n.writePayload p = .ok (p.overwrite Layout.payloadOffset n.payload) := by
  have hpayload := payload_le h
  have hbody := ((defect?_eq_none_iff n).1 h).2
  obtain ⟨id, keys, ⟨values, next⟩ | children⟩ := n
  · rw [writePayload]
    simp only
    rw [if_pos hbody]
    exact Page.writeRow_slots _ hpayload
  · rw [writePayload]
    simp only
    rw [if_pos hbody]
    rw [payload_internal] at hpayload ⊢
    rw [← Page.writeRow_words _ hpayload, List.map_map]
    rfl

/-- **The two patches make the page of a node.** -/
theorem overwrite_head_payload {n : Node} (h : n.defect? = none) :
    (Page.zero.overwrite 0 n.head).overwrite Layout.payloadOffset n.payload = n.image := by
  have hhead := size_head_le ((defect?_eq_none_iff n).1 h).1
  have hpayload := payload_le h
  have hblank : ∀ i, byteAt Page.zero.bytes i = 0 := fun i => by
    rw [Page.zero, Page.bytes_ofBytes, byteAt_fit, byteAt_of_ge (Nat.zero_le i), ite_self]
  apply Page.ext_bytes
  apply ext_byteAt (by rw [Page.size_bytes, Page.size_bytes])
  intro i hi
  rw [Page.size_bytes] at hi
  rw [Page.byteAt_overwrite _ hpayload, Page.byteAt_overwrite _ (by omega), hblank, Nat.zero_add]
  by_cases hlow : i < Layout.payloadOffset
  · -- in front of the payload there is only the header with the keys
    rw [if_neg (by omega), byteAt_image_of_lt n hlow]
    split
    · rfl
    · rw [byteAt_of_ge (by omega)]
  · obtain ⟨j, rfl⟩ := Nat.exists_eq_add_of_le (Nat.le_of_not_lt hlow)
    rw [byteAt_image_payload n hi, Nat.add_sub_cancel_left, if_neg (by omega : ¬ (0 ≤ _ ∧ _))]
    split
    · rfl
    · rw [byteAt_of_ge (by omega)]

/-! ## (7) The tests of a writer and the check -/

/-- The precondition that a node breaks when it is written although it does not fit in a page. -/
def faultOf (n : Node) : PageDefect → Fault
  | .tooManyKeys keys => .nodeOverflow keys
  | _ => if n.isLeaf then .leafCounts else .childCounts

/-- **A node that fits in a page is written as its page**, whatever the buffer held before. -/
theorem encodeInto_of_fits {n : Node} (h : n.defect? = none) (buffer : Page) :
    encodeInto buffer.bytes n = .ok n.image := by
  have hkeys := ((defect?_eq_none_iff n).1 h).1
  rw [encodeInto, if_neg (not_not_intro buffer.size_bytes), if_neg (Nat.not_lt.2 hkeys),
    writeHead_eq hkeys]
  change n.writePayload _ = _
  rw [writePayload_eq h, overwrite_head_payload h]

/-- **A node that does not fit breaks the precondition that its defect names.** -/
theorem encodeInto_of_defect {n : Node} {defect : PageDefect} (h : n.defect? = some defect)
    (buffer : Page) : encodeInto buffer.bytes n = .error (n.faultOf defect) := by
  rw [encodeInto, if_neg (not_not_intro buffer.size_bytes)]
  rw [defect?] at h
  by_cases hkeys : Layout.maxKeys < n.keys.length
  · rw [if_pos hkeys] at h
    obtain rfl := Option.some.inj h
    rw [if_pos hkeys, faultOf]
  · rw [if_neg hkeys] at h
    rw [if_neg hkeys, writeHead_eq (Nat.le_of_not_lt hkeys)]
    change n.writePayload _ = _
    rw [writePayload]
    -- the keys fit, so it is the other list that has another length than they ask for
    obtain ⟨id, keys, ⟨values, next⟩ | children⟩ := n
    · simp only at h ⊢
      split at h
      · cases h
      · obtain rfl := Option.some.inj h
        rw [if_neg ‹_›]
        rfl
    · simp only at h ⊢
      split at h
      · cases h
      · obtain rfl := Option.some.inj h
        rw [if_neg ‹_›]
        rfl

/-! ## (8) Writing and reading -/

theorem check_eq_ok_iff (n : Node) : n.check = .ok () ↔ n.defect? = none := by
  rw [check]
  cases n.defect? <;> simp

/-- **What a buffer held before does not matter.** -/
theorem encodeInto_bytes (buffer : Page) (n : Node) : encodeInto buffer.bytes n = n.encode := by
  have hzeros : n.encode = encodeInto (Page.mk (zeros Layout.pageSize) (size_zeros _)).bytes n := by
    rw [encode]
  rw [hzeros]
  cases h : n.defect? with
  | none => rw [encodeInto_of_fits h, encodeInto_of_fits h]
  | some defect => rw [encodeInto_of_defect h, encodeInto_of_defect h]

/-- **A node is written just if it fits in a page**, and then as its page. -/
theorem encode_eq_ok_iff {n : Node} {p : Page} :
    n.encode = .ok p ↔ n.defect? = none ∧ n.image = p := by
  rw [← encodeInto_bytes Page.zero]
  cases h : n.defect? with
  | none => simp [encodeInto_of_fits h]
  | some defect => simp [encodeInto_of_defect h]

/-- **Which pages are read**: the flag and the key count decide. -/
theorem exists_decode_iff (p : Page) :
    (∃ n, decode p.bytes = .ok n) ↔
      ((NodeHeader.read p.bytes).leafFlag = 0 ∨ (NodeHeader.read p.bytes).leafFlag = 1) ∧
        0 ≤ (NodeHeader.read p.bytes).keyCount.toInt ∧
          (NodeHeader.read p.bytes).keyCount.toInt ≤ 112 := by
  simp only [decode_eq_ok_iff]
  generalize NodeHeader.read p.bytes = header
  generalize keysOf p.bytes (countOn p.bytes) = keys
  constructor
  · rintro ⟨n, hcount, -, -, ⟨hflag, -⟩ | ⟨hflag, -⟩⟩
    · exact ⟨Or.inr hflag, hcount⟩
    · exact ⟨Or.inl hflag, hcount⟩
  · rintro ⟨hflag | hflag, hcount⟩
    · exact ⟨⟨header.id, keys, _⟩, hcount, rfl, rfl, Or.inr ⟨hflag, rfl⟩⟩
    · exact ⟨⟨header.id, keys, _⟩, hcount, rfl, rfl, Or.inl ⟨hflag, rfl⟩⟩

/-- **The page of what was read** is the page itself just if that is tidy. -/
theorem image_eq_iff_tidy {p : Page} {n : Node} (h : decode p.bytes = .ok n) :
    n.image = p ↔ Tidy p.bytes := by
  have hfit := defect?_of_decode h
  constructor
  · rintro rfl
    exact tidy_image hfit
  · exact fun htidy => (tidy_image hfit).eq_of_decode htidy (decode_image hfit) h

/-- **Writing and reading are exact in both directions.** A node is written just if it fits in a page,
whatever the buffer held before, and is read back as it was. A page is read just if its flag and its
key count are those of a node; what is read fits in a page, is written as the same page just if that
is tidy, and survives being written again. So no two nodes have the same page. -/
theorem codec_exact :
    (∀ (n : Node) (buffer : Page),
      ((∃ p, encodeInto buffer.bytes n = .ok p) ↔ n.check = .ok ()) ∧
      encodeInto buffer.bytes n = n.encode ∧
      ∀ p, encodeInto buffer.bytes n = .ok p → decode p.bytes = .ok n) ∧
    (∀ p : Page,
      ((∃ n, decode p.bytes = .ok n) ↔
        ((NodeHeader.read p.bytes).leafFlag = 0 ∨ (NodeHeader.read p.bytes).leafFlag = 1) ∧
          0 ≤ (NodeHeader.read p.bytes).keyCount.toInt ∧
            (NodeHeader.read p.bytes).keyCount.toInt ≤ 112) ∧
      ∀ n, decode p.bytes = .ok n →
        n.check = .ok () ∧ (n.encode = .ok p ↔ Tidy p.bytes) ∧
          ∃ q, n.encode = .ok q ∧ Tidy q.bytes ∧ decode q.bytes = .ok n) ∧
    ∀ (m n : Node) (p : Page), m.encode = .ok p → n.encode = .ok p → m = n := by
  refine ⟨fun n buffer => ⟨?_, encodeInto_bytes buffer n, fun p hp => ?_⟩,
    fun p => ⟨?_, fun n hn => ?_⟩, fun m n p hm hn => ?_⟩
  · rw [encodeInto_bytes, check_eq_ok_iff]
    simp only [encode_eq_ok_iff]
    exact ⟨fun ⟨_, hfit, _⟩ => hfit, fun hfit => ⟨n.image, hfit, rfl⟩⟩
  · rw [encodeInto_bytes, encode_eq_ok_iff] at hp
    rw [← hp.2]
    exact decode_image hp.1
  · exact exists_decode_iff p
  · have hfit := defect?_of_decode hn
    refine ⟨(check_eq_ok_iff n).2 hfit, ?_, n.image, encode_eq_ok_iff.2 ⟨hfit, rfl⟩,
      tidy_image hfit, decode_image hfit⟩
    rw [encode_eq_ok_iff, and_iff_right hfit, image_eq_iff_tidy hn]
  · obtain ⟨hmfit, rfl⟩ := encode_eq_ok_iff.1 hm
    obtain ⟨hnfit, himage⟩ := encode_eq_ok_iff.1 hn
    have hread := decode_image hnfit
    rw [himage, decode_image hmfit] at hread
    exact Except.ok.inj hread

/-- A leaf with a negative number, the greatest key and a slot that holds no text of its own. -/
def oddLeaf : Node :=
  ⟨⟨-5⟩, [7, -7, Int32.maxValue],
    .leaf [RowId.ofText "seven", RowId.tombstone, RowId.ofBytes ⟨#[0, 255]⟩] ⟨-9⟩⟩

theorem codec_exact_oddLeaf :
    oddLeaf.check = .ok () ∧ ∃ p, encodeInto Page.zero.bytes oddLeaf = .ok p ∧
      decode p.bytes = .ok oddLeaf ∧ Tidy p.bytes ∧ ∀ m : Node, m.encode = .ok p → m = oddLeaf := by
  obtain ⟨hwrite, hread, hdiffer⟩ := codec_exact
  have hcheck : oddLeaf.check = .ok () := rfl
  obtain ⟨hwritten, -, hback⟩ := hwrite oddLeaf Page.zero
  obtain ⟨p, hp⟩ := hwritten.2 hcheck
  have hencode : oddLeaf.encode = .ok p := by rwa [encodeInto_bytes] at hp
  refine ⟨hcheck, p, hp, hback p hp, ?_, fun m hm => hdiffer m oddLeaf p hm hencode⟩
  exact (((hread p).2 oddLeaf (hback p hp)).2.1).1 hencode

end Node

end RowIndex
