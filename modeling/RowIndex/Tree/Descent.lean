import RowIndex.PageFile.Basic

/-! # Descending to a leaf

From the root, each internal node is left through the child that a route picks from its keys, until
a leaf is reached.

* **`Route`** — which child to take. `Route.lookup` goes left of a separator that equals the key, so
  that no equal key is missed; `Route.insertion` goes right of it; `Route.leftmost` always takes the
  first child.
* **`PageFile.leafBy`** — the leaf that a route reaches, none for an empty tree. A descent through
  more nodes than there are pages follows a loop and is given up. -/

namespace RowIndex

/-- **Which child to take**, given the keys of an internal node. -/
abbrev Route := List Int32 → Nat

/-- How many keys at the front satisfy `p`. -/
def frontCount (p : Int32 → Bool) (keys : List Int32) : Nat :=
  (keys.takeWhile p).length

theorem frontCount_le (p : Int32 → Bool) (keys : List Int32) :
    frontCount p keys ≤ keys.length :=
  (List.takeWhile_sublist p).length_le

namespace Route

/-- The child left of the first separator that is not below the key. -/
def lookup (key : Int32) : Route :=
  frontCount (· < key)

/-- The child left of the first separator that is above the key. -/
def insertion (key : Int32) : Route :=
  frontCount (· ≤ key)

/-- The first child. -/
def leftmost : Route :=
  fun _ => 0

end Route

/-- The child at place `i`. -/
def childAt (children : List PageId) (i : Nat) : Except Failure PageId :=
  match children[i]? with
  | some child => .ok child
  | none => .error (.fault .noSuchChild)

namespace PageFile

/-- Descends from a node through at most `fuel` internal nodes. -/
def descend (f : PageFile) (route : Route) : (fuel : Nat) → Node → Except Failure Node
  | fuel, node =>
    match node.body with
    | .leaf .. => .ok node
    | .internal _ =>
      match fuel with
      | 0 => .error (.fault .endlessWalk)
      | fuel + 1 => do
        let child ← childAt node.children (route node.keys)
        f.descend route fuel (← f.readPage child)

/-- **The leaf that a route reaches from the root**, none for an empty tree. -/
def leafBy (f : PageFile) (route : Route) : Except Failure (Option Node) :=
  if f.root.isValid then do
    let leaf ← f.descend route f.pageCount (← f.readPage f.root)
    return some leaf
  else .ok none

/-- **The first leaf of the leaf chain**, none for an empty tree. -/
def leftmostLeaf (f : PageFile) : Except Failure (Option Node) :=
  f.leafBy Route.leftmost

end PageFile

end RowIndex
