import RowIndex.Tree.Descent

/-! # Inserting entries

An insertion descends along `Route.insertion` and splits every full node before it steps into it, so
that a separator can always be put into the node above.

* **`Split`** — the two halves of a full node and the separator between them; `Node.split?` makes
  one. A leaf's right half starts with the separator, an internal node gives its middle key away.
* **`Node.withChild`**, `Node.withEntry` — a node after a sibling was linked in, a leaf after an
  insertion.
* **`PageFile.splitChild`** — splits a child and links the new sibling into its parent.
* **`PageFile.insert`** — puts a text under a key, after the entries with the same key. -/

namespace RowIndex

/-- **A node split in two.** -/
structure Split where
  /-- The first half, on the old page. -/
  left : Node
  /-- The key that tells the halves apart. -/
  separator : Int32
  /-- The second half, on the new page. -/
  right : Node

namespace Node

/-- **Splits a full node**, the second half going to page `sibling`. The first half keeps
`Layout.minDegree` keys. -/
def split? (node : Node) (sibling : PageId) : Option Split :=
  (node.keys[Layout.minDegree]?).map fun separator =>
    let kept := node.keys.take Layout.minDegree
    match node.body with
    | .leaf values next =>
      { left := ⟨node.id, kept, .leaf (values.take Layout.minDegree) sibling⟩
        separator := separator
        right := ⟨sibling, node.keys.drop Layout.minDegree,
          .leaf (values.drop Layout.minDegree) next⟩ }
    | .internal children =>
      { left := ⟨node.id, kept, .internal (children.take (Layout.minDegree + 1))⟩
        separator := separator
        right := ⟨sibling, node.keys.drop (Layout.minDegree + 1),
          .internal (children.drop (Layout.minDegree + 1))⟩ }

/-- **An internal node with one more child**, behind the one at place `i`, and the separator between
the two. -/
def withChild (parent : Node) (i : Nat) (separator : Int32) (sibling : PageId) : Node :=
  ⟨parent.id, parent.keys.insertIdx i separator,
    .internal (parent.children.insertIdx (i + 1) sibling)⟩

/-- **A leaf with one more entry**, after those with the same key. -/
def withEntry (leaf : Node) (key : Int32) (value : RowId) : Node :=
  let place := frontCount (· ≤ key) leaf.keys
  ⟨leaf.id, leaf.keys.insertIdx place key, .leaf (leaf.values.insertIdx place value) leaf.next⟩

end Node

namespace PageFile

/-- **Splits the child at place `i`** of an internal node, and links the new sibling in behind it.
Child, sibling and parent are written in this order; the parent and the separator are handed
back. -/
def splitChild (parent : Node) (i : Nat) (child : Node) : Action (Node × Int32) := do
  let sibling ← allocate
  match child.split? sibling with
  | none => throw (.fault .splitOfShortNode)
  | some split =>
    let parent := parent.withChild i split.separator sibling
    writePage split.left
    writePage split.right
    writePage parent
    return (parent, split.separator)

/-- Inserts below a node that has room, through at most `fuel` internal nodes. -/
def insertBelow (key : Int32) (value : RowId) : (fuel : Nat) → Node → Action Unit
  | fuel, node =>
    match node.body with
    | .leaf .. => writePage (node.withEntry key value)
    | .internal _ =>
      match fuel with
      | 0 => throw (.fault .endlessWalk)
      | fuel + 1 => do
        let i := Route.insertion key node.keys
        let child ← Action.ask fun f => do f.readPage (← childAt node.children i)
        if child.isFull then
          let (parent, separator) ← splitChild node i child
          let j := if separator ≤ key then i + 1 else i
          let half ← Action.ask fun f => do f.readPage (← childAt parent.children j)
          insertBelow key value fuel half
        else insertBelow key value fuel child

/-- How many nodes an insertion may pass. Every split takes a full node away and fills the node above
by one key, so with `n` pages there are at most `3 * n + 1` splits; between two splits no node is
passed twice unless the pointers loop. -/
def insertionBound (n : Nat) : Nat :=
  (3 * n + 2) * (4 * n + 4)

/-- **Puts `value` under `key`**, after the entries with the same key. A full root is split under a
new root first. -/
def insertValue (key : Int32) (value : RowId) : Action Unit := do
  let f ← get
  if f.root.isValid then
    let root ← Action.ask (·.readPage f.root)
    if root.isFull then
      let id ← allocate
      let (parent, _) ← splitChild (Node.overChild id f.root) 0 root
      setRoot id
      insertBelow key value (insertionBound f.pageCount) parent
    else insertBelow key value (insertionBound f.pageCount) root
  else
    let id ← allocate
    writePage ⟨id, [key], .leaf [value] .none⟩
    setRoot id

/-- **Inserts a text under `key`**, stored as far as it fits in a slot. -/
def insert (key : Int32) (text : String) : Action Unit :=
  insertValue key (RowId.ofText text)

end PageFile

end RowIndex
