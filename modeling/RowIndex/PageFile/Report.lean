import RowIndex.PageFile.Basic
import RowIndex.Text.Quoted

/-! # What an open file tells of itself

* **`PageFile.debugText`** — one line for people who look into a program's state.
* **`PageSketch`** — a page in five numbers; `PageFile.sketches` those of all allocated pages.
* **`Allocation`** — what became of a run of allocations; `PageFile.allocateMany` makes one. -/

namespace RowIndex

namespace PageFile

/-- **One line that describes the open file.** -/
def debugText (f : PageFile) : String :=
  "Pager \x7b path: " ++ Quoted.quote f.path
    ++ ", root_page_id: PageId(" ++ Decimal.ofInt32 f.root.val
    ++ "), num_pages: " ++ Decimal.ofInt32 f.record.pages
    ++ ", capacity: " ++ Decimal.ofNat f.capacity ++ " \x7d"

end PageFile

/-- **A page in a few numbers.** -/
structure PageSketch where
  /-- Whether it holds a leaf. -/
  isLeaf : Bool
  /-- How many keys it holds. -/
  keyCount : Nat
  /-- Its first key. -/
  first : Option Int32
  /-- Its last key. -/
  last : Option Int32
  /-- The next leaf, or the first child. -/
  link : Option PageId
  deriving DecidableEq

/-- The sketch of a node. -/
def Node.sketch (n : Node) : PageSketch where
  isLeaf := n.isLeaf
  keyCount := n.keys.length
  first := n.keys.head?
  last := n.keys.getLast?
  link := if n.isLeaf then some n.next else n.children.head?

namespace PageFile

/-- The sketches of `count` pages from page `i` on, up to the first page that cannot be read. -/
def sketchesFrom (f : PageFile) : (count i : Nat) → List PageSketch →
    Except Failure (List PageSketch)
  | 0, _, seen => .ok seen.reverse
  | count + 1, i, seen => do
    let node ← f.readPage (PageId.ofIndex i)
    f.sketchesFrom count (i + 1) (node.sketch :: seen)

/-- **The sketches of all allocated pages but page 0.** -/
def sketches (f : PageFile) : Except Failure (List PageSketch) :=
  f.sketchesFrom (f.pageCount - 1) 1 []

end PageFile

/-- **What became of a run of allocations.** -/
structure Allocation where
  /-- The allocated pages, in order. -/
  pages : List PageId
  /-- The pages whose allocation changed the length of the file, with the new length. -/
  growth : List (PageId × Nat)
  /-- What ended the run early. -/
  stopped : Option Failure

namespace PageFile

/-- Allocates up to `count` pages after those already allocated, latest first. -/
def allocateFrom : (count : Nat) → (pages : List PageId) → (growth : List (PageId × Nat)) →
    PageFile → Allocation × PageFile
  | 0, pages, growth, f => (⟨pages.reverse, growth.reverse, none⟩, f)
  | count + 1, pages, growth, f =>
    match allocate.runOn f with
    | (.error failure, g) => (⟨pages.reverse, growth.reverse, some failure⟩, g)
    | (.ok id, g) =>
      let growth := if g.capacity = f.capacity then growth else (id, g.capacity) :: growth
      allocateFrom count (id :: pages) growth g

/-- **Allocates up to `count` pages**, stopping at the first failure. -/
def allocateMany (f : PageFile) (count : Nat) : Allocation × PageFile :=
  allocateFrom count [] [] f

end PageFile

end RowIndex
