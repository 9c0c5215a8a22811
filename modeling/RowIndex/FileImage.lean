import RowIndex.Page
import Std.Data.ExtTreeMap

/-! # The content of a file

A file is a length and a row of pages, kept sparsely: a page that was never written is zero. Two
files with the same length and the same stored pages are equal.

* **`FileImage.page`** — the page at a place.
* **`FileImage.setPage`** — replaces a page, with `page_setPage` its law.
* **`FileImage.resize`** — cuts or extends; what is cut away reads as zero when the file is
  extended again.
* **`FileImage.write`**, `FileImage.read` — bytes at any place. -/

namespace RowIndex

/-- **The content of a file.** -/
structure FileImage where
  /-- The length in bytes. -/
  length : Nat
  /-- The pages that were written. -/
  blocks : Std.ExtTreeMap Nat Page

namespace FileImage

/-- The file without content. -/
def empty : FileImage :=
  ⟨0, ∅⟩

instance : Inhabited FileImage := ⟨empty⟩

/-- The greatest length a file can have: a signed 64-bit word has to hold it. -/
def maxLength : Nat := 0x7FFFFFFFFFFFFFFF

/-- The greatest length of a file that can be mapped: two thirds of an address space of 47 bits, the
widest gap that a program leaves there. -/
def maxMapped : Nat := 0x555555554000

/-- **The page at place `k`**, zero where nothing was written. -/
def page (f : FileImage) (k : Nat) : Page :=
  f.blocks.getD k Page.zero

/-- **Replaces the page at place `k`.** -/
def setPage (f : FileImage) (k : Nat) (p : Page) : FileImage :=
  { f with blocks := f.blocks.insert k p }

@[simp] theorem length_setPage (f : FileImage) (k : Nat) (p : Page) :
    (f.setPage k p).length = f.length := rfl

/-- **The replaced page reads as written**, every other page as before. -/
theorem page_setPage (f : FileImage) (k : Nat) (p : Page) (j : Nat) :
    (f.setPage k p).page j = if j = k then p else f.page j := by
  simp only [page, setPage, Std.ExtTreeMap.getD_insert]
  by_cases h : j = k
  · simp [h]
  · rw [if_neg h, if_neg]
    simpa [Nat.compare_eq_eq] using Ne.symm h

/-- **Cuts or extends the file to `n` bytes.** -/
def resize (f : FileImage) (n : Nat) : FileImage :=
  if f.length ≤ n then { f with length := n }
  else
    let kept := f.blocks.filter fun k _ => k * Layout.pageSize < n
    let last := n / Layout.pageSize
    let inLast := n % Layout.pageSize
    let blocks :=
      if inLast = 0 then kept
      else kept.insert last (Page.ofBytes ((f.page last).bytes.extract 0 inLast))
    ⟨n, blocks⟩

@[simp] theorem length_resize (f : FileImage) (n : Nat) : (f.resize n).length = n := by
  simp only [resize]
  split <;> rfl

/-- **Extending a file keeps every page.** -/
theorem page_resize_of_le {f : FileImage} {n : Nat} (h : f.length ≤ n) (k : Nat) :
    (f.resize n).page k = f.page k := by
  simp [resize, h, page]

/-- The page at place `k` after `patch` was written from byte `start` on. -/
def patchedPage (f : FileImage) (start : Nat) (patch : ByteArray) (k : Nat) : Page :=
  let low := max start (k * Layout.pageSize)
  let high := min (start + patch.size) ((k + 1) * Layout.pageSize)
  (f.page k).overwrite (low - k * Layout.pageSize) (patch.extract (low - start) (high - start))

/-- **Writes `patch` from byte `start` on**, extending the file where needed. -/
def write (f : FileImage) (start : Nat) (patch : ByteArray) : FileImage :=
  if patch.size = 0 then f
  else
    let first := start / Layout.pageSize
    let count := (start + patch.size - 1) / Layout.pageSize - first + 1
    let written := (List.range count).foldl
      (fun g j => g.setPage (first + j) (f.patchedPage start patch (first + j))) f
    { written with length := max f.length (start + patch.size) }

/-- The file with the given content. -/
def ofBytes (b : ByteArray) : FileImage :=
  empty.write 0 b

/-- **The bytes from `start` on**, at most `count` and not past the end. -/
def read (f : FileImage) (start count : Nat) : ByteArray :=
  let stop := min (start + count) f.length
  if stop ≤ start then ByteArray.empty
  else
    let first := start / Layout.pageSize
    let pages := (stop - 1) / Layout.pageSize - first + 1
    (List.range pages).foldl
      (fun b j =>
        let base := (first + j) * Layout.pageSize
        b ++ (f.page (first + j)).bytes.extract (start - base) (stop - base))
      ByteArray.empty

end FileImage

end RowIndex
