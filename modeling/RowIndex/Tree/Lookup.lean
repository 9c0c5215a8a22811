import RowIndex.Tree.Descent

/-! # Looking entries up

A lookup descends to the leftmost leaf that may hold the least wanted key and follows the leaf chain
from there, up to the first key past the greatest wanted one.

* **`PageFile.chainUntil`** — the keys and slots along the chain up to the first key to stop at. A
  chain of more leaves than there are pages follows a loop and is given up.
* **`PageFile.chain`** — all keys and slots; `PageFile.entries` the live ones as texts.
* **`PageFile.range`** — the live entries between two keys.
* **`PageFile.search`** — the texts of the live entries under one key. -/

namespace RowIndex

/-- Whether an entry was not deleted, and had a text. -/
def isLive (entry : Int32 × RowId) : Bool :=
  !entry.2.isTombstone

/-- An entry with its slot read as text. -/
def shown (entry : Int32 × RowId) : Int32 × String :=
  (entry.1, entry.2.text)

@[simp] theorem isLive_mk (key : Int32) (value : RowId) :
    isLive (key, value) = !value.isTombstone := rfl

@[simp] theorem shown_mk (key : Int32) (value : RowId) :
    shown (key, value) = (key, value.text) := rfl

namespace PageFile

/-- **The keys and slots along the leaf chain**, up to the first key to stop at. -/
def chainUntil (f : PageFile) (stop : Int32 → Bool) : (fuel : Nat) → Node →
    Except Failure (List (Int32 × RowId))
  | fuel, leaf =>
    let here := leaf.entries.takeWhile fun entry => !stop entry.1
    if leaf.entries.any fun entry => stop entry.1 then .ok here
    else if leaf.next.isValid then
      match fuel with
      | 0 => .error (.fault .endlessWalk)
      | fuel + 1 => do
        let rest ← f.chainUntil stop fuel (← f.readPage leaf.next)
        return here ++ rest
    else .ok here

/-- **The live entries with keys from `low` to `high`**, in the order of the chain. -/
def range (f : PageFile) (low high : Int32) : Except Failure (List (Int32 × String)) :=
  if high < low then .ok []
  else do
    match ← f.leafBy (Route.lookup low) with
    | none => return []
    | some leaf =>
      let found ← f.chainUntil (high < ·) f.pageCount leaf
      return (found.filter fun entry => low ≤ entry.1 && isLive entry).map shown

/-- **All keys with their slots**, deleted ones included, in the order of the chain. -/
def chain (f : PageFile) : Except Failure (List (Int32 × RowId)) := do
  match ← f.leftmostLeaf with
  | none => return []
  | some leaf => f.chainUntil (fun _ => false) f.pageCount leaf

/-- **All live entries**, in the order of the chain. -/
def entries (f : PageFile) : Except Failure (List (Int32 × String)) := do
  return ((← f.chain).filter isLive).map shown

/-- **The texts of the live entries under `key`**, in the order of the chain. -/
def search (f : PageFile) (key : Int32) : Except Failure (List String) := do
  match ← f.leafBy (Route.lookup key) with
  | none => return []
  | some leaf =>
    let found ← f.chainUntil (key < ·) f.pageCount leaf
    return (found.filter fun entry => entry.1 == key && isLive entry).map fun entry =>
      entry.2.text

end PageFile

end RowIndex
