import RowIndex.Tree.Basic

/-! # Auditing a tree

* **`Tree.violations`** — where the nodes break the rules: keys in order, within the bounds that the
  separators above set, every separator the least key to its right, all leaves equally deep.
* **`PageFile.chainFrom`** — follows the leaf chain, which has to meet the leaves in their order.
* **`TreeStats`** — shape and occupancy; `PageFile.stats` gathers them without judging, and
  **`PageFile.verify`** refuses a tree with violations. -/

namespace RowIndex

/-! ## (1) The rules of the nodes -/

/-- Whether no key is above its right neighbour. -/
def ascending : List Int32 → Bool
  | a :: b :: rest => a ≤ b && ascending (b :: rest)
  | _ => true

/-- Where the keys of one node break the rules. -/
def keyViolations (id : PageId) (keys : List Int32) (lower upper : Option Int32) :
    List Violation :=
  (if ascending keys then [] else [.keysOutOfOrder id])
  ++ (match lower, keys.head? with
      | some bound, some first => if first < bound then [.keyBelowBound id first bound] else []
      | _, _ => [])
  ++ (match upper, keys.getLast? with
      | some bound, some last => if bound < last then [.keyAboveBound id last bound] else []
      | _, _ => [])

/-- Whether a separator is the least key of the subtree to its right. -/
def separatorViolations (id : PageId) (separator least : Option Int32) : List Violation :=
  match separator with
  | none => []
  | some key => if least = some key then [] else [.separator id key least]

namespace Tree

mutual

/-- **Where a tree breaks the rules.** The tree hangs at `depth`, its keys are to lie between
`lower` and `upper`, and its leaves are to lie at depth `expected`. -/
def violations (expected depth : Nat) (lower upper : Option Int32) : Tree → List Violation
  | .leaf id entries _ =>
    keyViolations id (entries.map (·.1)) lower upper
      ++ (if depth = expected then [] else [.leafDepth id depth expected])
  | .branch id keys children =>
    keyViolations id keys lower upper
      ++ (if keys.isEmpty then [.noKeys id] else [])
      ++ violationsOf id expected (depth + 1) lower upper none keys children

/-- Where a row of subtrees of node `id` breaks the rules: `separator` is the key left of the first
of them, `keys` are those between them. -/
def violationsOf (id : PageId) (expected depth : Nat) (lower upper separator : Option Int32)
    (keys : List Int32) : List Tree → List Violation
  | [] => []
  | t :: ts =>
    violations expected depth (separator.or lower) (keys.head?.or upper) t
      ++ separatorViolations id separator (least t)
      ++ violationsOf id expected depth lower upper keys.head? keys.tail ts

end

end Tree

/-! ## (2) The leaf chain -/

/-- **What a walk along the leaf chain met.** -/
structure ChainWalk where
  /-- The leaves, in the order of the chain. -/
  visited : List PageId
  /-- Where the chain breaks the rules. -/
  violations : List Violation
  /-- Whether the chain came to its end. -/
  ended : Bool

namespace PageFile

/-- Where a leaf of the chain starts below a key before it. -/
def backwards (id : PageId) (previous first : Option Int32) : List Violation :=
  match previous, first with
  | some previous, some key =>
    if key < previous then [.chainGoesBackwards id key previous] else []
  | _, _ => []

/-- **Follows the leaf chain** over at most `left` leaves; `leaves` is the number there should be,
`previous` the last key before. -/
def chainFrom (f : PageFile) (leaves : Nat) : (left : Nat) → PageId → Option Int32 →
    Except Failure ChainWalk
  | left, current, previous =>
    if current.isValid then
      match left with
      | 0 => .ok ⟨[], [.chainContinues leaves], false⟩
      | left + 1 => do
        let node ← f.readPage current
        if node.isLeaf then
          let rest ← f.chainFrom leaves left node.next (node.keys.getLast?.or previous)
          return ⟨current :: rest.visited,
            backwards current previous node.keys.head? ++ rest.violations, rest.ended⟩
        else return ⟨[], [.chainReachesInternal current], false⟩
    else .ok ⟨[], [], true⟩

/-- **Where the leaf chain breaks the rules**, given the leaves it has to visit. -/
def chainViolations (f : PageFile) (leaves : List PageId) : Except Failure (List Violation) :=
  match leaves with
  | [] => .ok []
  | first :: _ => do
    let walk ← f.chainFrom leaves.length leaves.length first none
    if walk.ended && walk.visited ≠ leaves then
      return walk.violations ++ [.chainOrder walk.visited.length leaves.length]
    else return walk.violations

end PageFile

/-! ## (3) Statistics -/

/-- **Shape and occupancy of a tree.** -/
structure TreeStats where
  /-- The number of levels: none for an empty tree, one for a lone leaf. -/
  depth : Nat
  /-- How many leaves there are. -/
  leafPages : Nat
  /-- How many internal nodes there are. -/
  internalPages : Nat
  /-- How many slots hold a text. -/
  liveEntries : Nat
  /-- How many slots are empty. -/
  tombstones : Nat
  /-- How many pages are allocated, page 0 included. -/
  pages : Int32
  deriving DecidableEq

/-- **The statistics in one line.** -/
def TreeStats.text (s : TreeStats) : String :=
  "depth=" ++ Decimal.ofNat s.depth ++ " leaves=" ++ Decimal.ofNat s.leafPages
    ++ " internal=" ++ Decimal.ofNat s.internalPages ++ " live=" ++ Decimal.ofNat s.liveEntries
    ++ " tombstones=" ++ Decimal.ofNat s.tombstones ++ " pages=" ++ Decimal.ofInt32 s.pages

/-- The statistics of a file with `pages` pages and no tree. -/
def TreeStats.ofEmpty (pages : Int32) : TreeStats :=
  ⟨0, 0, 0, 0, 0, pages⟩

/-- **The statistics of a tree** in a file with `pages` pages. -/
def Tree.stats (t : Tree) (pages : Int32) : TreeStats :=
  let slots := t.entries.map (·.2)
  { depth := t.leftDepth
    leafPages := t.leaves.length
    internalPages := t.branchCount
    liveEntries := slots.countP fun v => !v.isTombstone
    tombstones := slots.countP RowId.isTombstone
    pages := pages }

/-- **What an audit finds**: the statistics and all violations. -/
structure Audit where
  /-- Shape and occupancy. -/
  stats : TreeStats
  /-- Where the tree or its chain breaks the rules. -/
  violations : List Violation

namespace PageFile

/-- **Audits the tree**: the nodes first, then the leaf chain. A page that cannot be read ends the
audit. -/
def audit (f : PageFile) : Except Failure Audit := do
  match ← f.tree with
  | none => return ⟨TreeStats.ofEmpty f.record.pages, []⟩
  | some t =>
    let inNodes := t.violations t.leftDepth 1 none none
    let inChain ← f.chainViolations (t.leaves.map Tree.Leaf.id)
    return ⟨t.stats f.record.pages, inNodes ++ inChain⟩

/-- Gathers the statistics without judging the tree. -/
def stats (f : PageFile) : Except Failure TreeStats := do
  return (← f.audit).stats

/-- **The statistics of a tree without violations**; all violations are reported together. -/
def verify (f : PageFile) : Except Failure TreeStats := do
  let found ← f.audit
  if found.violations.isEmpty then return found.stats
  else throw (.error (.structureViolation found.violations))

end PageFile

end RowIndex
