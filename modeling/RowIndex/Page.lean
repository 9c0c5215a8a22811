import RowIndex.Bytes
import RowIndex.Failure

/-! # Pages

* **`Page`** — a byte string of exactly the page length.
* **`Page.zero`** — the page without content.
* **`Page.ofBytes`** — cuts or zero-pads a byte string to a page.
* **`Page.overwrite`** — replaces the bytes from some place on.
* **`Page.writeRow`** — replaces several runs of bytes, one behind the other, as long as they end in the
  page. -/

namespace RowIndex

/-- **The bytes of one page.** -/
structure Page where
  /-- The bytes. -/
  bytes : ByteArray
  /-- Every page has the same length. -/
  size_bytes : bytes.size = Layout.pageSize

namespace Page

/-- Two pages are equal when their bytes are. -/
theorem ext_bytes {a b : Page} (h : a.bytes = b.bytes) : a = b := by
  cases a
  cases b
  simp_all

instance : DecidableEq Page := fun a b =>
  @decidable_of_decidable_of_iff (a.bytes = b.bytes) (a = b) (ByteArray.decEq a.bytes b.bytes)
    ⟨ext_bytes, congrArg bytes⟩

/-- **The page that starts with the given bytes**, cut or padded with zeros to a page's length. -/
def ofBytes (b : ByteArray) : Page :=
  ⟨Bytes.fit Layout.pageSize b, Bytes.size_fit _ _⟩

@[simp] theorem bytes_ofBytes (b : ByteArray) :
    (ofBytes b).bytes = Bytes.fit Layout.pageSize b := rfl

/-- The page without content. -/
def zero : Page :=
  ofBytes ByteArray.empty

instance : Inhabited Page := ⟨zero⟩

/-- **The page with the bytes from `i` on replaced by `patch`.** -/
def overwrite (p : Page) (i : Nat) (patch : ByteArray) : Page :=
  ofBytes (Bytes.overwrite p.bytes i patch)

/-- A patch that lies inside the page replaces exactly its own bytes. -/
theorem byteAt_overwrite (p : Page) {i : Nat} {patch : ByteArray}
    (h : i + patch.size ≤ Layout.pageSize) (j : Nat) :
    Bytes.byteAt (p.overwrite i patch).bytes j =
      if i ≤ j ∧ j < i + patch.size then Bytes.byteAt patch (j - i)
      else Bytes.byteAt p.bytes j := by
  have hi : i + patch.size ≤ p.bytes.size := by rw [p.size_bytes]; exact h
  rw [overwrite, bytes_ofBytes, Bytes.fit_of_size_eq, Bytes.byteAt_overwrite hi]
  rw [Bytes.size_overwrite hi, p.size_bytes]

/-- **The page with a row of byte strings written over it**, one every `width` bytes from `i` on. The
first that does not end in the page breaks a precondition. -/
def writeRow (width : Nat) (p : Page) (i : Nat) : List ByteArray → Except Fault Page
  | [] => .ok p
  | part :: parts =>
    if i + part.size ≤ Layout.pageSize then writeRow width (p.overwrite i part) (i + width) parts
    else .error .shortBuffer

end Page

end RowIndex
