import RowIndex.LittleEndian
import RowIndex.Failure

/-! # Node headers

The first sixteen bytes of a node's page: its number, the leaf flag, the key count, the next leaf
and three bytes of padding. The words are not aligned.

* **`NodeHeader.push`** appends a header to a byte string; `NodeHeader.read` reads one at its start.
* **`NodeHeader.readFrom`**, `NodeHeader.writeTo` — the same in a buffer, which must be long enough. -/

namespace RowIndex

/-- **The fields of a node's header**, as they are stored. -/
structure NodeHeader where
  /-- The page's own number. -/
  id : PageId
  /-- 1 for a leaf, 0 for an internal node. -/
  leafFlag : UInt8
  /-- How many keys the node has. -/
  keyCount : Int32
  /-- The next leaf. -/
  next : PageId
  deriving DecidableEq

namespace NodeHeader

/-- The leaf flag of a leaf. -/
def leaf : UInt8 := 1

/-- The leaf flag of an internal node. -/
def internal : UInt8 := 0

/-- **Appends the sixteen bytes of a header.** -/
def push (b : ByteArray) (h : NodeHeader) : ByteArray :=
  let fields := LittleEndian.pushInt (LittleEndian.pushInt ((LittleEndian.pushInt b h.id.val).push
    h.leafFlag) h.keyCount) h.next.val
  ((fields.push 0).push 0).push 0

@[simp] theorem size_push (b : ByteArray) (h : NodeHeader) : (push b h).size = b.size + 16 := by
  simp [push]

/-- **The header at the start of a byte string**; bytes past its end count as zero. -/
def read (b : ByteArray) : NodeHeader where
  id := ⟨LittleEndian.intAt b 0⟩
  leafFlag := Bytes.byteAt b 4
  keyCount := LittleEndian.intAt b 5
  next := ⟨LittleEndian.intAt b 9⟩

/-- Reads the header of a buffer that is long enough. -/
def readFrom (b : ByteArray) : Except Fault NodeHeader :=
  if b.size < Layout.headerSize then .error .headerBuffer else .ok (read b)

/-- Writes a header over the start of a buffer that is long enough; the padding becomes zero. -/
def writeTo (b : ByteArray) (h : NodeHeader) : Except Fault ByteArray :=
  if b.size < Layout.headerSize then .error .headerBuffer
  else .ok (Bytes.overwrite b 0 (push ByteArray.empty h))

end NodeHeader

end RowIndex
