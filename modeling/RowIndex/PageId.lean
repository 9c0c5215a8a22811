import RowIndex.Layout
import RowIndex.Text.Decimal

/-! # Page identifiers

A file is a row of pages, numbered from zero. Page 0 holds the metadata record, so a node's page has
a positive number; the number `-1` stands for "no page".

* **`PageId`** — the number as it is stored, a signed word.
* **`PageId.none`** — no page: the root of an empty tree, the end of the leaf chain.
* **`PageId.index`**, `offset?` — the place of the page in the file. -/

namespace RowIndex

/-- **The number of a page.** -/
structure PageId where
  /-- The stored number. -/
  val : Int32
  deriving DecidableEq, Inhabited

namespace PageId

/-- No page. -/
def none : PageId := ⟨-1⟩

/-- The page of the metadata record. -/
def metadata : PageId := ⟨0⟩

/-- Whether the number can be that of a page. -/
def isValid (p : PageId) : Bool :=
  0 ≤ p.val

/-- The place of the page in the row of pages; zero for negative numbers. -/
def index (p : PageId) : Nat :=
  p.val.toInt.toNat

/-- The page at place `i`. -/
def ofIndex (i : Nat) : PageId :=
  ⟨Int32.ofNat i⟩

/-- **The byte at which the page starts**, for a number that can be that of a page. -/
def offset? (p : PageId) : Option Nat :=
  if p.isValid then some (p.index * Layout.pageSize) else Option.none

/-- The text that stands for the page in messages. -/
def text (p : PageId) : String :=
  if p = none then "Page(INVALID)" else "Page(" ++ Decimal.ofInt32 p.val ++ ")"

end PageId

end RowIndex
