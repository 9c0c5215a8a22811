import RowIndex.Crc32
import RowIndex.Failure
import RowIndex.LittleEndian

/-! # The metadata record

The first twelve bytes of page 0: the root of the tree, the number of allocated pages, and a
checksum of these two.

* **`Metadata.image`** — the stored record.
* **`Metadata.read`** — reads a record back; a stored checksum of zero is not compared.
* **`Metadata.isAllocated`** — the pages that may hold nodes. -/

namespace RowIndex

/-- **What the file says of itself.** -/
structure Metadata where
  /-- The root of the tree, none when it is empty. -/
  root : PageId
  /-- How many pages are allocated, the page of this record included. -/
  pages : Int32
  deriving DecidableEq

namespace Metadata

open LittleEndian

/-- The record of a file without a tree: only page 0 is allocated. -/
def empty : Metadata :=
  ⟨.none, 1⟩

/-- **Whether a page may hold a node**: it is allocated, and not page 0. -/
def isAllocated (m : Metadata) (p : PageId) : Bool :=
  1 ≤ p.val && p.val < m.pages

/-- How many pages are allocated, as a number. -/
def pageCount (m : Metadata) : Nat :=
  m.pages.toInt.toNat

/-! ## (1) The stored record -/

/-- Bytes in a record. -/
abbrev recordSize : Nat := 12

/-- Bytes under the checksum. -/
abbrev checkedSize : Nat := 8

/-- The root and the page count, as they are stored. -/
def fields (m : Metadata) : ByteArray :=
  pushInt (pushInt ByteArray.empty m.root.val) m.pages

/-- The checksum of a record: the CRC-32 of its first eight bytes. -/
def checksum (b : ByteArray) : UInt32 :=
  crc32 (b.extract 0 checkedSize)

/-- **The stored record.** -/
def image (m : Metadata) : ByteArray :=
  pushWord m.fields (checksum m.fields)

@[simp] theorem size_fields (m : Metadata) : m.fields.size = 8 := by
  simp [fields]

@[simp] theorem size_image (m : Metadata) : m.image.size = 12 := by
  simp [image]

/-- The checksum of a buffer that is long enough. -/
def checksumOf (b : ByteArray) : Except Fault UInt32 :=
  if b.size < checkedSize then .error .shortBuffer else .ok (checksum b)

/-- Writes the record over the start of a buffer that is long enough. -/
def writeTo (b : ByteArray) (m : Metadata) : Except Fault ByteArray :=
  if b.size < recordSize then .error .shortBuffer
  else .ok (Bytes.overwrite b 0 m.image)

/-! ## (2) Reading a record -/

/-- **Why a record cannot be trusted**: it counts no page, or its root is not allocated. -/
def defect? (m : Metadata) : Option MetadataDefect :=
  if m.pages < 1 then some (.pageCount m.pages)
  else if m.root = .none ∨ m.isAllocated m.root then none
  else some (.root m.root m.pages)

/-- **Reads the record at the start of a byte string.** The length is looked at first, then the
checksum, then the fields. -/
def read (b : ByteArray) : Except MetadataDefect Metadata :=
  if b.size < recordSize then .error (.length recordSize b.size)
  else
    let stored := wordAt b 8
    let computed := checksum b
    if stored ≠ 0 ∧ stored ≠ computed then .error (.checksum stored computed)
    else
      let m : Metadata := ⟨⟨intAt b 0⟩, intAt b 4⟩
      match m.defect? with
      | none => .ok m
      | some defect => .error defect

end Metadata

end RowIndex
