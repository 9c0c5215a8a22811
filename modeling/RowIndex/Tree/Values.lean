import RowIndex.PageFile.Basic

/-! # Looking for row identifiers on all pages

There is no way from a row identifier to its keys, so these operations go through all allocated
pages, in order, and stop at the first that cannot be read.

* **`PageFile.contains`** — whether some leaf holds a row identifier.
* **`PageFile.deleteValues`** — clears every slot that holds one of the given row identifiers; keys
  stay where they are. -/

namespace RowIndex

namespace Node

/-- The node with every slot that holds one of `targets` cleared. -/
def clear (node : Node) (targets : List RowId) : Node :=
  match node.body with
  | .leaf values next =>
    { node with
      body := .leaf (values.map fun v => if targets.contains v then .tombstone else v) next }
  | .internal _ => node

/-- How many slots of the node hold one of `targets`. -/
def countOf (node : Node) (targets : List RowId) : Nat :=
  node.values.countP targets.contains

end Node

namespace PageFile

/-- Whether one of `count` pages from page `i` on holds `value`. -/
def containsFrom (f : PageFile) (value : RowId) : (count i : Nat) → Except Failure Bool
  | 0, _ => .ok false
  | count + 1, i => do
    let node ← f.readPage (PageId.ofIndex i)
    if node.values.contains value then return true
    else f.containsFrom value count (i + 1)

/-- **Whether a leaf holds the row identifier of a text.** A text whose slot is empty is held
nowhere. -/
def contains (f : PageFile) (text : String) : Except Failure Bool :=
  let value := RowId.ofText text
  if value.isTombstone then .ok false
  else f.containsFrom value (f.pageCount - 1) 1

/-- Clears `targets` on `count` pages from page `i` on, after `cleared` slots on earlier pages. -/
def clearFrom (targets : List RowId) : (count i cleared : Nat) → Action Nat
  | 0, _, cleared => return cleared
  | count + 1, i, cleared => do
    let node ← Action.ask (·.readPage (PageId.ofIndex i))
    let found := node.countOf targets
    if found ≠ 0 then writePage (node.clear targets)
    clearFrom targets count (i + 1) (cleared + found)

/-- The row identifiers to look for: those of the given texts, without the empty slot. -/
def targetsOf (texts : List String) : List RowId :=
  (texts.map RowId.ofText).filter fun value => !value.isTombstone

/-- **Clears every slot that holds the row identifier of one of `texts`**, and says how many there
were. -/
def deleteValues (texts : List String) : Action Nat := do
  let targets := targetsOf texts
  if targets.isEmpty then return 0
  else clearFrom targets ((← get).pageCount - 1) 1 0

end PageFile

end RowIndex
