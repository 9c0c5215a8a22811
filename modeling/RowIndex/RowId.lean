import RowIndex.Failure
import RowIndex.Text.Quoted
import RowIndex.Text.Utf8

/-! # Row identifiers

A row identifier is a text in a slot of 32 bytes, padded with zeros; the text ends at the first
zero byte. The all-zero slot is the mark that a deletion leaves behind.

* **`RowId`** — the slot.
* **`RowId.ofText`** — stores the longest prefix that fits (`storable`); `ofWholeText` refuses a text
  that does not fit as a whole.
* **`RowId.text`** — reads the slot.
* **`RowId.isTombstone`** — whether the entry was deleted, or never had a text. -/

namespace RowIndex

/-- **A slot for a row identifier.** -/
structure RowId where
  /-- The bytes of the slot. -/
  bytes : ByteArray
  /-- A slot has a fixed length. -/
  size_bytes : bytes.size = Layout.valueSize

namespace RowId

/-- Two slots are equal when their bytes are. -/
theorem ext_bytes {a b : RowId} (h : a.bytes = b.bytes) : a = b := by
  cases a
  cases b
  simp_all

instance : DecidableEq RowId := fun a b =>
  @decidable_of_decidable_of_iff (a.bytes = b.bytes) (a = b) (ByteArray.decEq a.bytes b.bytes)
    ⟨ext_bytes, congrArg bytes⟩

/-- The slot with the given bytes, cut or padded with zeros to the slot's length. -/
def ofBytes (b : ByteArray) : RowId :=
  ⟨Bytes.fit Layout.valueSize b, Bytes.size_fit _ _⟩

@[simp] theorem bytes_ofBytes (b : ByteArray) :
    (ofBytes b).bytes = Bytes.fit Layout.valueSize b := rfl

/-- **The empty slot**, the mark of a deleted entry. -/
def tombstone : RowId :=
  ofBytes ByteArray.empty

instance : Inhabited RowId := ⟨tombstone⟩

/-- **Whether the slot holds no text**: its first byte is zero. -/
def isTombstone (r : RowId) : Bool :=
  Bytes.byteAt r.bytes 0 = 0

/-! ## (1) Storing a text -/

/-- **The longest prefix that fits in `room` bytes of UTF-8** and holds no NUL. -/
def storable (room : Nat) : List Char → List Char
  | [] => []
  | c :: rest =>
    if c = '\x00' ∨ room < c.utf8Size then [] else c :: storable (room - c.utf8Size) rest

@[simp] theorem storable_nil (room : Nat) : storable room [] = [] := rfl

theorem storable_cons (room : Nat) (c : Char) (rest : List Char) :
    storable room (c :: rest) =
      if c = '\x00' ∨ room < c.utf8Size then [] else c :: storable (room - c.utf8Size) rest := rfl

/-- **Stores a text**, cut at the first NUL and at the last character that fits. -/
def ofText (text : String) : RowId :=
  ofBytes (String.ofList (storable Layout.valueSize text.toList)).toUTF8

/-- **Stores a text that fits as a whole**; a NUL is reported before the length. -/
def ofWholeText (text : String) : Except Error RowId :=
  if '\x00' ∈ text.toList then
    .error (.valueContainsNul
      (String.ofList (text.toList.takeWhile (· ≠ '\x00'))).utf8ByteSize)
  else if Layout.valueSize < text.utf8ByteSize then
    .error (.valueTooLong text.utf8ByteSize Layout.valueSize)
  else .ok (ofText text)

/-! ## (2) Reading a slot -/

/-- The number of bytes before the first zero byte. -/
def textLength (r : RowId) : Nat :=
  (r.bytes.data.toList.takeWhile (· ≠ 0)).length

/-- **The text of a slot**: the bytes before the first zero byte. -/
def text (r : RowId) : String :=
  Utf8.decodeLossy (r.bytes.extract 0 r.textLength)

/-- The written form of a slot for people who look into a file. -/
def debugText (r : RowId) : String :=
  if r.isTombstone then "RowId(TOMBSTONE)" else "RowId(" ++ Quoted.quote r.text ++ ")"

end RowId

end RowIndex
