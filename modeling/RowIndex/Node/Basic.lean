import RowIndex.RowId

/-! # Nodes of the tree

* **`Node`** — a page number, keys and a body: a leaf holds one slot for each key and the number of
  the next leaf, an internal node holds one child more than keys.
* **`Node.emptyLeaf`**, `Node.overChild` — the smallest nodes.
* **`Node.isFull`** — a node that has to be split before anything is put into it.
* **`Node.entries`** — the keys of a leaf with their slots.

The lists may disagree in length: such a node is refused when it is to be stored. -/

namespace RowIndex

/-- **What a node holds besides its keys.** -/
inductive NodeBody where
  /-- A leaf: `values[i]` is stored under `keys[i]`, and `next` follows in the leaf chain. -/
  | leaf (values : List RowId) (next : PageId)
  /-- An internal node: the keys under `children[i + 1]` start at `keys[i]`. -/
  | internal (children : List PageId)
  deriving DecidableEq

/-- **A node of the tree.** -/
structure Node where
  /-- The page that holds the node. -/
  id : PageId
  /-- The keys, in ascending order. -/
  keys : List Int32
  /-- Slots or children. -/
  body : NodeBody
  deriving DecidableEq

namespace Node

/-- A leaf without entries, at the end of the leaf chain. -/
def emptyLeaf (id : PageId) : Node :=
  ⟨id, [], .leaf [] .none⟩

/-- An internal node with one child and no keys. -/
def overChild (id child : PageId) : Node :=
  ⟨id, [], .internal [child]⟩

/-- Whether the node is a leaf. -/
def isLeaf (n : Node) : Bool :=
  match n.body with
  | .leaf .. => true
  | .internal .. => false

/-- **Whether the node has no room for another key.** -/
def isFull (n : Node) : Bool :=
  Layout.maxKeys ≤ n.keys.length

/-- The next leaf of the leaf chain; none for an internal node. -/
def next (n : Node) : PageId :=
  match n.body with
  | .leaf _ next => next
  | .internal _ => .none

/-- The children of an internal node; none for a leaf. -/
def children (n : Node) : List PageId :=
  match n.body with
  | .leaf .. => []
  | .internal children => children

/-- The slots of a leaf; none for an internal node. -/
def values (n : Node) : List RowId :=
  match n.body with
  | .leaf values _ => values
  | .internal _ => []

/-- **The keys of a leaf with their slots**; none for an internal node. -/
def entries (n : Node) : List (Int32 × RowId) :=
  n.keys.zip n.values

end Node

end RowIndex
