import RowIndex.Node.Basic
import RowIndex.Node.Header
import RowIndex.Page

/-! # The page of a node

* **`Node.image`** — the page: header, keys, and from a fixed place on the slots or the children;
  everything else is zero.
* **`Node.check`** — whether a node fits in a page.
* **`Node.encodeInto`** — writes a node over a buffer field by field, with tests of its own; `Node.encode`
  writes it over zeros.
* **`Node.decode`** — reads a node back, refusing a wrong length, key count or leaf flag. -/

namespace RowIndex.Node

open LittleEndian

/-! ## (1) From a node to its page -/

/-- The header of a node; the next leaf of an internal node is stored as none. -/
def header (n : Node) : NodeHeader where
  id := n.id
  leafFlag := if n.isLeaf then NodeHeader.leaf else NodeHeader.internal
  keyCount := Int32.ofNat n.keys.length
  next := n.next

/-- The bytes of the slots or of the children. -/
def payload (n : Node) : ByteArray :=
  match n.body with
  | .leaf values _ => values.foldl (fun b value => b ++ value.bytes) ByteArray.empty
  | .internal children => children.foldl (fun b child => pushInt b child.val) ByteArray.empty

/-- **The page of a node.** -/
def image (n : Node) : Page :=
  let head := n.keys.foldl pushInt (NodeHeader.push ByteArray.empty n.header)
  Page.ofBytes (Bytes.fit Layout.payloadOffset head ++ n.payload)

/-- **Why a node does not fit in a page**: too many keys, or lists that disagree in length. -/
def defect? (n : Node) : Option PageDefect :=
  let keys := n.keys.length
  if Layout.maxKeys < keys then some (.tooManyKeys keys)
  else
    match n.body with
    | .leaf values _ =>
      if values.length = keys then none else some (.valueCount values.length keys)
    | .internal children =>
      if children.length = keys + 1 then none else some (.childCount children.length keys)

/-- **Whether a node fits in a page.** -/
def check (n : Node) : Except Error Unit :=
  match n.defect? with
  | none => .ok ()
  | some defect => .error (.corruptPage n.id defect)

/-- **Writes the header and the keys of a node over a page**, after all bytes were set to zero. -/
def writeHead (n : Node) (p : Page) : Except Fault Page := do
  let blank := p.overwrite 0 (Bytes.zeros Layout.pageSize)
  let headed ← NodeHeader.writeTo blank.bytes n.header
  (Page.ofBytes headed).writeRow 4 Layout.keysOffset (n.keys.map (pushInt ByteArray.empty))

/-- **Writes the slots or the children of a node over a page**; there must be as many as the keys ask
for. -/
def writePayload (n : Node) (p : Page) : Except Fault Page :=
  match n.body with
  | .leaf values _ =>
    if values.length = n.keys.length then
      p.writeRow Layout.valueSize Layout.payloadOffset (values.map RowId.bytes)
    else .error .leafCounts
  | .internal children =>
    if children.length = n.keys.length + 1 then
      p.writeRow 4 Layout.payloadOffset (children.map fun child => pushInt ByteArray.empty child.val)
    else .error .childCounts

/-- **Writes a node over a buffer** of a page's length, field by field. Too many keys are noticed before
anything is written, lists that disagree in length only after the keys were. -/
def encodeInto (buffer : ByteArray) (n : Node) : Except Fault Page :=
  if buffer.size ≠ Layout.pageSize then .error .pageBuffer
  else if Layout.maxKeys < n.keys.length then .error (.nodeOverflow n.keys.length)
  else do
    let headed ← n.writeHead (Page.ofBytes buffer)
    n.writePayload headed

/-- **The page of a node**, written field by field over zeros. -/
def encode (n : Node) : Except Fault Page :=
  encodeInto (Bytes.zeros Layout.pageSize) n

/-! ## (2) From a page to its node -/

/-- The first `count` keys of a page. -/
def keysOf (b : ByteArray) (count : Nat) : List Int32 :=
  (List.range count).map fun i => intAt b (Layout.keysOffset + i * 4)

/-- The first `count` slots of a leaf's page. -/
def valuesOf (b : ByteArray) (count : Nat) : List RowId :=
  (List.range count).map fun i =>
    let start := Layout.payloadOffset + i * Layout.valueSize
    RowId.ofBytes (b.extract start (start + Layout.valueSize))

/-- The first `count` children of an internal node's page. -/
def childrenOf (b : ByteArray) (count : Nat) : List PageId :=
  (List.range count).map fun i => ⟨intAt b (Layout.payloadOffset + i * 4)⟩

/-- **The node of a page.** The key count is looked at before the leaf flag; bytes that no key, slot
or child uses do not matter. -/
def decode (b : ByteArray) : Except Error Node :=
  if b.size ≠ Layout.pageSize then .error (.corruptPage .none (.length b.size))
  else
    let header := NodeHeader.read b
    if header.keyCount < 0 ∨ Int32.ofNat Layout.maxKeys < header.keyCount then
      .error (.corruptPage header.id (.keyCount header.keyCount))
    else
      let count := header.keyCount.toInt.toNat
      if header.leafFlag = NodeHeader.leaf then
        .ok ⟨header.id, keysOf b count, .leaf (valuesOf b count) header.next⟩
      else if header.leafFlag = NodeHeader.internal then
        .ok ⟨header.id, keysOf b count, .internal (childrenOf b (count + 1))⟩
      else .error (.corruptPage header.id (.leafFlag header.leafFlag))

end RowIndex.Node
