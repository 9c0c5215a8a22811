import RowIndex.PageFile.Basic

/-! # The tree that a file holds

* **`Tree`** — the nodes reached from the root, as one value: a leaf with its entries and the link
  it carries, or a branch with its keys and subtrees.
* **`PageFile.tree`** — reads the tree from the file, none when it is empty. A path through more
  nodes than there are pages follows a loop and is given up.
* **`Tree.leaves`**, `Tree.entries`, `Tree.least`, `Tree.leftDepth` — the leaves from left to right,
  their entries, the first key, and the depth of the leftmost leaf. -/

namespace RowIndex

/-- **A tree of nodes.** -/
inductive Tree where
  /-- A leaf with its entries and its link to the next leaf. -/
  | leaf (id : PageId) (entries : List (Int32 × RowId)) (next : PageId)
  /-- An internal node with its keys and subtrees. -/
  | branch (id : PageId) (keys : List Int32) (children : List Tree)

namespace Tree

/-- **What a leaf holds**, apart from the tree around it. -/
structure Leaf where
  /-- Its page. -/
  id : PageId
  /-- Its entries. -/
  entries : List (Int32 × RowId)
  /-- The next leaf of the chain. -/
  next : PageId

/-! ## (1) Views -/

mutual

/-- **The leaves from left to right.** -/
def leaves : Tree → List Leaf
  | .leaf id entries next => [⟨id, entries, next⟩]
  | .branch _ _ children => leavesOf children

/-- The leaves of a row of trees. -/
def leavesOf : List Tree → List Leaf
  | [] => []
  | t :: ts => leaves t ++ leavesOf ts

end

mutual

/-- How many branches the tree has. -/
def branchCount : Tree → Nat
  | .leaf .. => 0
  | .branch _ _ children => branchCountOf children + 1

/-- How many branches a row of trees has. -/
def branchCountOf : List Tree → Nat
  | [] => 0
  | t :: ts => branchCount t + branchCountOf ts

end

mutual

/-- **The first key of the leftmost leaf**, none when that leaf is empty. -/
def least : Tree → Option Int32
  | .leaf _ entries _ => entries.head?.map (·.1)
  | .branch _ _ children => leastOf children

/-- The first key of the leftmost leaf of a row of trees. -/
def leastOf : List Tree → Option Int32
  | [] => none
  | t :: _ => least t

end

mutual

/-- **The number of levels down to the leftmost leaf.** -/
def leftDepth : Tree → Nat
  | .leaf .. => 1
  | .branch _ _ children => leftDepthOf children + 1

/-- The number of levels down to the leftmost leaf of a row of trees. -/
def leftDepthOf : List Tree → Nat
  | [] => 0
  | t :: _ => leftDepth t

end

/-- **The entries from left to right.** -/
def entries (t : Tree) : List (Int32 × RowId) :=
  t.leaves.flatMap Leaf.entries

@[simp] theorem leaves_leaf (id : PageId) (es : List (Int32 × RowId)) (next : PageId) :
    leaves (.leaf id es next) = [⟨id, es, next⟩] := by
  simp [leaves]

@[simp] theorem leaves_branch (id : PageId) (keys : List Int32) (children : List Tree) :
    leaves (.branch id keys children) = children.flatMap leaves := by
  have row : ∀ ts, leavesOf ts = ts.flatMap leaves := by
    intro ts
    induction ts with
    | nil => simp [leavesOf]
    | cons t ts ih => simp [leavesOf, ih]
  simp [leaves, row]

@[simp] theorem branchCount_leaf (id : PageId) (es : List (Int32 × RowId)) (next : PageId) :
    branchCount (.leaf id es next) = 0 := by
  simp [branchCount]

@[simp] theorem branchCount_branch (id : PageId) (keys : List Int32) (children : List Tree) :
    branchCount (.branch id keys children) = branchCountOf children + 1 := by
  simp [branchCount]

@[simp] theorem branchCountOf_nil : branchCountOf [] = 0 := by
  simp [branchCountOf]

@[simp] theorem branchCountOf_cons (t : Tree) (ts : List Tree) :
    branchCountOf (t :: ts) = branchCount t + branchCountOf ts := by
  simp [branchCountOf]

@[simp] theorem least_leaf (id : PageId) (es : List (Int32 × RowId)) (next : PageId) :
    least (.leaf id es next) = es.head?.map (·.1) := by
  simp [least]

@[simp] theorem least_branch (id : PageId) (keys : List Int32) (children : List Tree) :
    least (.branch id keys children) = children.head?.bind least := by
  cases children <;> simp [least, leastOf]

@[simp] theorem leftDepth_leaf (id : PageId) (es : List (Int32 × RowId)) (next : PageId) :
    leftDepth (.leaf id es next) = 1 := by
  simp [leftDepth]

@[simp] theorem leftDepth_branch (id : PageId) (keys : List Int32) (first : Tree)
    (rest : List Tree) :
    leftDepth (.branch id keys (first :: rest)) = leftDepth first + 1 := by
  simp [leftDepth, leftDepthOf]

@[simp] theorem entries_branch (id : PageId) (keys : List Int32) (children : List Tree) :
    entries (.branch id keys children) = children.flatMap entries := by
  simp only [entries, leaves_branch, List.flatMap_assoc]
  rfl

@[simp] theorem entries_leaf (id : PageId) (es : List (Int32 × RowId)) (next : PageId) :
    entries (.leaf id es next) = es := by
  simp [entries]

end Tree

/-! ## (2) Reading a tree -/

namespace PageFile

/-- The tree under a page, through at most `fuel` levels. Nodes are read from left to right, each
before the nodes below it. -/
def treeAt (f : PageFile) : (fuel : Nat) → PageId → Except Failure Tree
  | 0, _ => .error (.fault .endlessWalk)
  | fuel + 1, id => do
    let node ← f.readPage id
    match node.body with
    | .leaf _ next => return .leaf id node.entries next
    | .internal children => return .branch id node.keys (← children.mapM (f.treeAt fuel))

/-- **The tree of the file**, none when it is empty. -/
def tree (f : PageFile) : Except Failure (Option Tree) :=
  if f.root.isValid then do
    let t ← f.treeAt f.pageCount f.root
    return some t
  else .ok none

end PageFile

end RowIndex
