import RowIndex.Proofs.Calls
import RowIndex.Proofs.DanglingChildren
import RowIndex.Proofs.ExactPages
import RowIndex.Proofs.Walks

/-! # Operations that test their preconditions

The operations of an index take for granted that pages are mapped, that a list has the place that is
asked for, that a node fits in its page, that a node which is split is full and that its parent has
room. Here are the same operations with a test before each such step, which are stopped where a test
fails. In a file of any content no test fails, so they do what the operations without tests do.

* **`Breach`** — what a careful operation is stopped for.
* **`Careful`** — an operation that may be stopped, and may fail with an error otherwise.
* **`Careful.readPage`**, `writePage`, `allocate`, `splitChild`, `insert`, `deleteValues` — the operations
  with tests.
* **`Careful.Follows`** — a careful operation that is not stopped and does what an action does.
* **`Careful.follows_insertBelow`** — an insertion passes all tests on its way.
* **`PageFile.SafeToUse`** — what can be asked of a file.
* **`PageFile.content_never_breaches`** — a file of any content that can be opened is safe to use. -/

namespace RowIndex

/-! ## (1) Careful operations -/

/-- **What a careful operation is stopped for.** -/
inductive Breach where
  /-- The bytes of a page that are not all mapped. -/
  | unmapped (p : PageId)
  /-- A place that lies behind the end of a list or of a page. -/
  | outOfBounds (place length : Nat)
  /-- A node, read or to be written, that does not fit in a page. -/
  | misfit (defect : PageDefect)
  /-- A broken precondition of the page format or of the operation without tests. -/
  | assertion (fault : Fault)
  /-- A split asked of a node with another number of keys than a full one has. -/
  | splitOf (keys : Nat)
  /-- A parent with more keys than fit in its page. -/
  | crowded (keys : Nat)
  /-- A page count that no longer fits in its word. -/
  | pageCountOverflow
  /-- A length that no longer fits in its word. -/
  | lengthOverflow

/-- **Whether a number outgrew its word.** -/
def Breach.IsOverflow (breach : Breach) : Prop :=
  breach = .pageCountOverflow ∨ breach = .lengthOverflow

/-- **An operation that tests its preconditions**: it may be stopped, and otherwise it answers or fails
with an error, as the file is left behind. -/
abbrev Careful := ExceptT Error (StateT PageFile (Except Breach))

namespace Careful

variable {α β : Type}

/-- Runs a careful operation. -/
def runOn (action : Careful α) (f : PageFile) : Except Breach (Except Error α × PageFile) :=
  (ExceptT.run action).run f

/-- Stops a careful operation. -/
def stop (breach : Breach) : Careful α :=
  throwThe Breach breach

/-- **Goes on under a condition only.** -/
def demand (condition : Prop) [Decidable condition] (breach : Breach) : Careful Unit :=
  if condition then pure () else stop breach

theorem runOn_bind (action : Careful α) (next : α → Careful β) (f : PageFile) :
    runOn (action >>= next) f =
      match runOn action f with
      | .error breach => .error breach
      | .ok (.error e, g) => .ok (.error e, g)
      | .ok (.ok a, g) => runOn (next a) g := by
  change (runOn action f).bind (fun x => (ExceptT.bindCont next x.1).run x.2) = _
  rcases runOn action f with breach | ⟨e | a, g⟩ <;> rfl

end Careful

/-! ## (2) The operations with tests -/

/-- How long the row of slots or children of a node is. -/
def Node.rowLength (n : Node) : Nat :=
  match n.body with
  | .leaf values _ => values.length
  | .internal children => children.length

/-- The byte behind the last slot or child on the page of a node. -/
def Node.extent (n : Node) : Nat :=
  Layout.payloadOffset + n.rowLength * if n.isLeaf then Layout.valueSize else 4

/-- **Whether all bytes of a page are mapped.** -/
def PageFile.Maps (f : PageFile) (p : PageId) : Prop :=
  (p.index + 1) * Layout.pageSize ≤ f.capacity

instance (f : PageFile) (p : PageId) : Decidable (f.Maps p) :=
  inferInstanceAs (Decidable (_ ≤ _))

namespace Careful

/-- **Tests that a node lies in its page**: its lists match and are not too long. -/
def demandFit (node : Node) : Careful Unit :=
  match node.defect? with
  | some defect => stop (.misfit defect)
  | none => do
    demand (Layout.keysOffset + node.keys.length * 4 ≤ Layout.payloadOffset)
      (.outOfBounds (Layout.keysOffset + node.keys.length * 4) Layout.payloadOffset)
    demand (node.extent ≤ Layout.pageSize) (.outOfBounds node.extent Layout.pageSize)

/-- Reads a page. Its bytes have to be mapped, with a header and a node that lie in them. -/
def readPage (p : PageId) : Careful Node := do
  let f ← get
  demand (f.record.isAllocated p → f.Maps p) (.unmapped p)
  match NodeHeader.readFrom (f.image.page p.index).bytes, f.readPage p with
  | .error fault, _ => stop (.assertion fault)
  | .ok _, .error (.fault fault) => stop (.assertion fault)
  | .ok _, .error (.error e) => throw e
  | .ok _, .ok node => do
    demandFit node
    return node

/-- Reads the child at a place that has to be there. -/
def readChild (children : List PageId) (i : Nat) : Careful Node :=
  match children[i]? with
  | none => stop (.outOfBounds i children.length)
  | some p => readPage p

/-- Writes a node to its page. The bytes of the page have to be mapped, and the node has to fit. -/
def writePage (node : Node) : Careful Unit := do
  let f ← get
  if f.record.isAllocated node.id then
    demand (f.Maps node.id) (.unmapped node.id)
    demandFit node
    match node.encodeInto (f.image.page node.id.index).bytes with
    | .error fault => stop (.assertion fault)
    | .ok page => set { f with image := f.image.setPage node.id.index page, dirty := true }
  else throw (.pageOutOfRange node.id f.record.pages)

/-- Tests that the record can be stored: page 0 has to be mapped and long enough. -/
def demandRecord (f : PageFile) : Careful Unit := do
  demand (f.Maps .metadata) (.unmapped .metadata)
  match f.record.writeTo (f.image.page 0).bytes with
  | .error fault => stop (.assertion fault)
  | .ok _ => pure ()

/-- Allocates the next page. The new length has to fit in its word, the new page has to be mapped when
it is cleared, and the page count has to fit in its word when it is counted. -/
def allocate : Careful PageId := do
  let f ← get
  demand (f.capacity < f.neededLength → f.grownLength < UInt64.size) .lengthOverflow
  match f.withRoom with
  | (.error (.fault fault), _) => stop (.assertion fault)
  | (.error (.error e), g) => do
    set g
    throw e
  | (.ok (), g) => do
    demand (g.Maps f.nextPage) (.unmapped f.nextPage)
    demand (f.record.pages ≠ Int32.maxValue) .pageCountOverflow
    demandRecord g
    set g.withFreshPage
    return f.nextPage

/-- Makes a page the root, or says that there is none. The record has to be mapped. -/
def setRoot (root : PageId) : Careful Unit := do
  let f ← get
  if root = .none ∨ f.record.isAllocated root then
    demandRecord f
    set (f.withRoot root)
  else throw (.pageOutOfRange root f.record.pages)

/-- **Splits the child at place `i`.** The child has to be full, both of its lists have to reach over
the place where they are cut, and the parent has to have the places of the separator and of the sibling,
and room for them. -/
def splitChild (parent : Node) (i : Nat) (child : Node) : Careful (Node × Int32) := do
  demand (child.keys.length = Layout.maxKeys) (.splitOf child.keys.length)
  let sibling ← allocate
  demand (Layout.minDegree < child.rowLength) (.outOfBounds Layout.minDegree child.rowLength)
  match child.split? sibling with
  | none => stop (.outOfBounds Layout.minDegree child.keys.length)
  | some split =>
    demand (i ≤ parent.keys.length) (.outOfBounds i parent.keys.length)
    demand (i + 1 ≤ parent.children.length) (.outOfBounds (i + 1) parent.children.length)
    let parent := parent.withChild i split.separator sibling
    demand (parent.keys.length ≤ Layout.maxKeys) (.crowded parent.keys.length)
    writePage split.left
    writePage split.right
    writePage parent
    return (parent, split.separator)

/-- Inserts below a node that has room. The child and, after a split, the separator and the half have to
be at their places, and the entry has to have a place in the leaf. -/
def insertBelow (key : Int32) (value : RowId) : (fuel : Nat) → Node → Careful Unit
  | fuel, node =>
    let i := Route.insertion key node.keys
    match node.body with
    | .leaf values _ => do
      demand (i ≤ node.keys.length) (.outOfBounds i node.keys.length)
      demand (i ≤ values.length) (.outOfBounds i values.length)
      writePage (node.withEntry key value)
    | .internal children =>
      match fuel with
      | 0 => stop (.assertion .endlessWalk)
      | fuel + 1 => do
        let child ← readChild children i
        if child.isFull then
          let (parent, separator) ← splitChild node i child
          demand (parent.keys[i]? = some separator) (.outOfBounds i parent.keys.length)
          let j := if separator ≤ key then i + 1 else i
          let half ← readChild parent.children j
          insertBelow key value fuel half
        else insertBelow key value fuel child

/-- Puts `value` under `key`. -/
def insertValue (key : Int32) (value : RowId) : Careful Unit := do
  let f ← get
  if f.root.isValid then
    let root ← readPage f.root
    if root.isFull then
      let id ← allocate
      let (parent, _) ← splitChild (Node.overChild id f.root) 0 root
      setRoot id
      insertBelow key value (PageFile.insertionBound f.pageCount) parent
    else insertBelow key value (PageFile.insertionBound f.pageCount) root
  else
    let id ← allocate
    writePage ⟨id, [key], .leaf [value] .none⟩
    setRoot id

/-- **Inserts a text under `key`**, with all tests. -/
def insert (key : Int32) (text : String) : Careful Unit :=
  insertValue key (RowId.ofText text)

/-- Clears `targets` on a row of pages. -/
def clearFrom (targets : List RowId) : (count i cleared : Nat) → Careful Nat
  | 0, _, cleared => return cleared
  | count + 1, i, cleared => do
    let node ← readPage (PageId.ofIndex i)
    let found := node.countOf targets
    if found ≠ 0 then writePage (node.clear targets)
    clearFrom targets count (i + 1) (cleared + found)

/-- **Clears every slot that holds one of `texts`**, with all tests. -/
def deleteValues (texts : List String) : Careful Nat := do
  let targets := PageFile.targetsOf texts
  if targets.isEmpty then return 0
  else clearFrom targets ((← get).pageCount - 1) 1 0

/-! ## (3) Careful operations beside the others -/

/-- **Outcomes that agree**: what an action came to, and what a careful operation came to that was not
stopped, or for one of the reasons `stops`. -/
inductive Agrees (stops : Breach → Prop) (Q : α → PageFile → Prop) :
    Except Breach (Except Error α × PageFile) → Except Failure α × PageFile → Prop
  /-- Both succeed with the same answer, and leave the same file behind. -/
  | ok {a : α} {g : PageFile} : Q a g → Agrees stops Q (.ok (.ok a, g)) (.ok a, g)
  /-- Both fail with the same error, and leave the same file behind. -/
  | error {e : Error} {g : PageFile} : Agrees stops Q (.ok (.error e, g)) (.error (.error e), g)
  /-- The careful operation was stopped. -/
  | stopped {breach : Breach} {outcome : Except Failure α × PageFile} :
      stops breach → Agrees stops Q (.error breach) outcome

/-- **A careful operation that does what an action does** on a file, unless it is stopped for one of the
reasons `stops`. -/
def Follows (stops : Breach → Prop) (Q : α → PageFile → Prop) (careful : Careful α)
    (action : Action α) (f : PageFile) : Prop :=
  Agrees stops Q (careful.runOn f) (action.runOn f)

section Rules

variable {stops : Breach → Prop} {P Q : α → PageFile → Prop} {R : β → PageFile → Prop}
  {careful : Careful α} {action : Action α} {f : PageFile}

theorem follows_pure {a : α} (h : Q a f) : Follows stops Q (pure a) (pure a) f :=
  .ok h

/-- **One operation after another.** -/
theorem follows_bind {next : α → Careful β} {next' : α → Action β}
    (h : Follows stops Q careful action f)
    (hnext : ∀ a g, Q a g → Follows stops R (next a) (next' a) g) :
    Follows stops R (careful >>= next) (action >>= next') f := by
  rw [Follows] at h ⊢
  rw [runOn_bind, Action.runOn_bind]
  generalize careful.runOn f = outcome at h ⊢
  generalize action.runOn f = outcome' at h ⊢
  cases h with
  | ok ha => exact hnext _ _ ha
  | error => exact .error
  | stopped hstops => exact .stopped hstops

/-- **What is known of the outcome of the action** is known of the careful operation. -/
theorem Follows.imp (h : Follows stops P careful action f)
    (hPQ : ∀ a g, action.runOn f = (.ok a, g) → P a g → Q a g) :
    Follows stops Q careful action f := by
  rw [Follows] at h ⊢
  generalize careful.runOn f = outcome at h ⊢
  generalize action.runOn f = outcome' at h hPQ ⊢
  cases h with
  | ok ha => exact .ok (hPQ _ _ rfl ha)
  | error => exact .error
  | stopped hstops => exact .stopped hstops

/-- A test that passes. -/
theorem runOn_demand {condition : Prop} [Decidable condition] {breach : Breach} (h : condition)
    (f : PageFile) : (demand condition breach).runOn f = .ok (.ok (), f) := by
  rw [demand, if_pos h]
  rfl

/-- **A test that passes**, or may stop the operation. -/
theorem follows_demand {condition : Prop} [Decidable condition] {breach : Breach}
    {next : Unit → Careful α} (hstops : ¬ condition → stops breach)
    (hnext : condition → Follows stops Q (next ()) action f) :
    Follows stops Q (demand condition breach >>= next) action f := by
  rw [Follows, runOn_bind]
  by_cases h : condition
  · rw [demand, if_pos h]
    exact hnext h
  · rw [demand, if_neg h]
    exact .stopped (hstops h)

/-- A test that passes. -/
theorem follows_demand_of {condition : Prop} [Decidable condition] {breach : Breach}
    {next : Unit → Careful α} (h : condition) (hnext : Follows stops Q (next ()) action f) :
    Follows stops Q (demand condition breach >>= next) action f :=
  follows_demand (fun hnot => absurd h hnot) fun _ => hnext

/-- What is done with the file itself. -/
theorem follows_get_bind {next : PageFile → Careful α}
    (h : Follows stops Q (next f) action f) : Follows stops Q (get >>= next) action f := by
  rw [Follows, runOn_bind]
  exact h

theorem follows_get_bind_get {next : PageFile → Careful α} {next' : PageFile → Action α}
    (h : Follows stops Q (next f) (next' f) f) :
    Follows stops Q (get >>= next) (get >>= next') f := by
  rw [Follows, Action.runOn_bind, Action.runOn_get]
  exact follows_get_bind h

/-- The action is known by what it comes to. -/
theorem Follows.congr {action' : Action α} (h : Follows stops Q careful action' f)
    (hrun : action.runOn f = action'.runOn f) : Follows stops Q careful action f := by
  rw [Follows, hrun]
  exact h

end Rules

/-! ## (4) Elementary operations on files in use -/

section Elementary

variable {stops : Breach → Prop} {f g : PageFile}

/-- Allocated pages are mapped. -/
theorem maps_of_isAllocated (hf : f.InUse) {p : PageId} (hp : f.record.isAllocated p) : f.Maps p :=
  Nat.le_trans (Nat.mul_le_mul_right _ (Metadata.index_of_isAllocated hp).2) hf.counted

/-- So is page 0. -/
theorem maps_metadata (hf : f.InUse) : f.Maps .metadata :=
  Nat.le_trans (Nat.mul_le_mul_right _ hf.one_le_pageCount) hf.counted

/-- The row of slots or children of a node that fits reaches over the keys. -/
theorem length_keys_le_rowLength {node : Node} (hfit : node.defect? = none) :
    node.keys.length ≤ node.rowLength := by
  obtain ⟨-, hrow⟩ := (Node.defect?_eq_none_iff node).1 hfit
  obtain ⟨id, keys, body⟩ := node
  cases body with
  | leaf values next => exact Nat.le_of_eq hrow.symm
  | internal children => exact Nat.le_trans (Nat.le_succ _) (Nat.le_of_eq hrow.symm)

/-- **A node that fits in a page lies in it.** -/
theorem extent_le {node : Node} (hfit : node.defect? = none) : node.extent ≤ Layout.pageSize := by
  obtain ⟨hkeys, hrow⟩ := (Node.defect?_eq_none_iff node).1 hfit
  obtain ⟨id, keys, body⟩ := node
  cases body with
  | leaf values next =>
    have hlength : values.length ≤ Layout.maxKeys := Nat.le_trans (Nat.le_of_eq hrow) hkeys
    exact Nat.le_trans (Nat.add_le_add_left (Nat.mul_le_mul_right _ hlength) _) Layout.leafEnd_le
  | internal children =>
    have hlength : children.length ≤ Layout.maxChildren :=
      Nat.le_trans (Nat.le_of_eq hrow) (Nat.succ_le_succ hkeys)
    exact Nat.le_trans (Nat.add_le_add_left (Nat.mul_le_mul_right _ hlength) _)
      Layout.internalEnd_le

/-- **A node that fits in a page passes the test.** -/
theorem runOn_demandFit {node : Node} (hfit : node.defect? = none) (f : PageFile) :
    (demandFit node).runOn f = .ok (.ok (), f) := by
  have hkeys : Layout.keysOffset + node.keys.length * 4 ≤ Layout.payloadOffset :=
    Nat.add_le_add_left (Nat.mul_le_mul_right 4 ((Node.defect?_eq_none_iff node).1 hfit).1) _
  simp only [demandFit, hfit]
  rw [runOn_bind, runOn_demand hkeys]
  exact runOn_demand (extent_le hfit) f

/-- **The record of a file in use can be stored.** -/
theorem runOn_demandRecord (hf : f.InUse) (g : PageFile) :
    (demandRecord f).runOn g = .ok (.ok (), g) := by
  have hlong : ¬ (f.image.page 0).bytes.size < Metadata.recordSize := by
    rw [Page.size_bytes]
    decide
  rw [demandRecord, runOn_bind, runOn_demand (maps_metadata hf), Metadata.writeTo]
  simp only [if_neg hlong]
  rfl

/-- **A page is read with all tests passed.** -/
theorem follows_readPage (hf : f.InUse) (p : PageId) :
    Follows stops (fun n g => g = f ∧ f.readPage n.id = .ok n ∧ n.id = p) (readPage p)
      (Action.ask (·.readPage p)) f := by
  have hheader : NodeHeader.readFrom (f.image.page p.index).bytes
      = .ok (NodeHeader.read (f.image.page p.index).bytes) := by
    rw [NodeHeader.readFrom, if_neg (by rw [Page.size_bytes]; decide)]
  refine follows_get_bind (follows_demand_of (maps_of_isAllocated hf) ?_)
  rw [hheader, Follows, Action.runOn_ask]
  have hread := PageFile.told_readPage f p
  generalize hresult : f.readPage p = result at hread ⊢
  cases hread with
  | ok hnode =>
    rw [runOn_bind, runOn_demandFit (PageFile.defect?_of_readPage hnode.1)]
    exact .ok ⟨rfl, hnode⟩
  | error e => exact .error

/-- **A node that fits in a page is written with all tests passed.** -/
theorem follows_writePage (hf : f.InUse) {node : Node} (hfit : node.defect? = none) :
    Follows stops (fun _ g => g = f.withNode node ∧ f.record.isAllocated node.id ∧ g.InUse)
      (writePage node) (PageFile.writePage node) f := by
  refine follows_get_bind ?_
  by_cases ha : f.record.isAllocated node.id
  · have hencode : node.encodeInto (f.image.page node.id.index).bytes = .ok node.image :=
      Node.encodeInto_of_fits hfit _
    have hrun := PageFile.runOn_writePage_of_fits ha hfit
    have hkept := PageFile.keeps_writePage node f hf
    rw [hrun] at hkept
    rw [if_pos ha]
    refine follows_demand_of (maps_of_isAllocated hf ha) ?_
    rw [Follows, runOn_bind, runOn_demandFit hfit, hrun, hencode]
    exact .ok ⟨rfl, ha, hkept⟩
  · rw [if_neg ha, Follows, PageFile.runOn_writePage, if_neg ha]
    exact .error

/-- Where the new length fits in its word, room is refused by the system only. -/
theorem eq_io_of_withRoom {failure : Failure}
    (hlength : f.capacity < f.neededLength → f.grownLength < UInt64.size)
    (hroom : f.withRoom = (.error failure, g)) : failure = .error .io := by
  simp only [PageFile.withRoom] at hroom
  split at hroom
  · cases hroom
  · rename_i hneeded
    rw [if_neg (Nat.not_le.2 (hlength (Nat.lt_of_not_le hneeded)))] at hroom
    split at hroom
    · split at hroom
      · cases hroom
      · exact (Except.error.inj (Prod.mk.inj hroom).1).symm
    · exact (Except.error.inj (Prod.mk.inj hroom).1).symm

/-- **A page is allocated with all tests passed**, unless a number outgrows its word. -/
theorem follows_allocate (hf : f.InUse) :
    Follows Breach.IsOverflow (fun id g => id = f.nextPage ∧ PageFile.Allocated f g ∧ g.InUse)
      allocate PageFile.allocate f := by
  refine follows_get_bind ?_
  refine follows_demand (fun _ => Or.inr rfl) fun hlength => ?_
  have hkept := PageFile.keeps_allocate f hf
  have hroomInUse := hf.withRoom
  have hrun := PageFile.runOn_allocate f
  rcases hroom : f.withRoom with ⟨failure | ok, g⟩
  · rw [hroom] at hrun
    rw [Follows, hrun, eq_io_of_withRoom hlength hroom]
    exact .error
  · have hmaps : g.Maps f.nextPage := PageFile.neededLength_le_of_withRoom hroom
    rw [hroom] at hrun hroomInUse
    refine follows_demand_of hmaps (follows_demand (fun _ => Or.inl rfl) fun hfits => ?_)
    replace hrun := hrun.trans (if_neg hfits)
    rcases PageFile.allocate_cases f with ⟨failure, k, hrun', -⟩ | ⟨k, hrun', hallocated⟩
    · rw [hrun] at hrun'
      cases hrun'
    · rw [hrun] at hrun' hkept
      obtain ⟨-, rfl⟩ := Prod.mk.inj hrun'
      rw [Follows, hrun, runOn_bind, runOn_demandRecord hroomInUse]
      exact .ok ⟨rfl, hallocated, hkept⟩

theorem follows_setRoot (hf : f.InUse) {root : PageId} (hroot : f.record.isAllocated root) :
    Follows stops (fun _ g => g = f.withRoot root ∧ g.InUse) (setRoot root)
      (PageFile.setRoot root) f := by
  have hrun : (PageFile.setRoot root).runOn f = (.ok (), f.withRoot root) := by
    rw [PageFile.runOn_setRoot, if_pos (Or.inr hroot)]
  have hkept := PageFile.keeps_setRoot root f hf
  rw [hrun] at hkept
  refine follows_get_bind ?_
  rw [if_pos (Or.inr hroot), Follows, runOn_bind, runOn_demandRecord hf, hrun]
  exact .ok ⟨rfl, hkept⟩

end Elementary

/-! ## (5) Splits -/

end Careful

namespace Tree

/-- **The halves of a node have no other children.** -/
theorem Halves.children_subset {sibling : PageId} {c l r : Tree} {separator : Int32}
    (h : Halves sibling c l separator r) :
    l.node.children ⊆ c.node.children ∧ r.node.children ⊆ c.node.children := by
  cases h with
  | leaf => exact ⟨List.Subset.refl _, List.Subset.refl _⟩
  | branch =>
    simp only [node, Node.children, List.map_append]
    exact ⟨List.subset_append_left _ _, List.subset_append_right _ _⟩

end Tree

namespace PageFile

open RowIndex.Tree Relation

variable {f g : PageFile} {n m : Node} {i : Nat}

/-- **One of the halves of a node**, on its page. -/
structure IsHalf (f g : PageFile) (m half : Node) : Prop where
  /-- It is on its page. -/
  read : g.readPage half.id = .ok half
  /-- The page is the old one or the new one. -/
  page : half.id = m.id ∨ half.id = f.nextPage
  /-- It has room for another key. -/
  room : ¬ half.isFull
  /-- It has no other children. -/
  children : half.children ⊆ m.children

/-- **What splitting the child `m` of `n` comes to**: the parent and its separator, and the file with
parent and halves on their pages. -/
structure SplitUnder (f : PageFile) (n : Node) (i : Nat) (m : Node) (answer : Node × Int32)
    (g : PageFile) : Prop where
  /-- The file is in use. -/
  inUse : g.InUse
  /-- The parent has the new sibling behind the child. -/
  parent : answer.1 = n.withChild i answer.2 f.nextPage
  /-- It is on its page. -/
  read : g.readPage n.id = .ok answer.1
  /-- The halves are at their places in it. -/
  halves : ∃ l r, IsHalf f g m l ∧ IsHalf f g m r ∧ answer.1.children[i]? = some l.id ∧
    answer.1.children[i + 1]? = some r.id
  /-- All other pages are kept. -/
  kept : ∀ q, f.record.isAllocated q → q ≠ n.id → q ≠ m.id → g.readPage q = f.readPage q
  /-- One page more is counted. -/
  pages : g.record.pages.toInt = f.record.pages.toInt + 1

/-- **A split that succeeds** leaves the halves below the parent. -/
theorem splitUnder_of_runOn {answer : Node × Int32} (hg : g.InUse) (hn : f.record.isAllocated n.id)
    (hfit : ∀ separator, (n.withChild i separator f.nextPage).defect? = none)
    (hchild : n.children[i]? = some m.id) (hm : f.readPage m.id = .ok m) (hne : m.id ≠ n.id)
    (hfull : m.isFull) (hrun : (splitChild n i m).runOn f = (.ok answer, g)) :
    SplitUnder f n i m answer g := by
  obtain ⟨c, rfl⟩ := exists_node_eq (defect?_of_readPage hm)
  rw [id_node] at hm hne hchild
  rcases splitChild_pages_cases i hn hfit hm hne hfull with
    ⟨failure, k, hrun', -⟩ |
      ⟨k, separator, l, r, hhalves, ⟨hl, hr⟩, hrun', hparent, ⟨hlread, hrread⟩, hkept, -, hcount⟩
  · rw [hrun] at hrun'
    cases hrun'
  rw [hrun] at hrun'
  cases hrun'
  obtain ⟨hat, hbehind⟩ := getElem?_withChild hchild separator f.nextPage
  obtain ⟨hlsub, hrsub⟩ := hhalves.children_subset
  refine ⟨hg, rfl, hparent, ⟨l.node, r.node, ⟨by rwa [id_node], Or.inl ?_, ?_, hlsub⟩,
    ⟨by rwa [id_node], Or.inr ?_, ?_, hrsub⟩, ?_, ?_⟩, fun q hq hqn hqc => hkept q hq hqn ?_, hcount⟩
  · rw [id_node, id_node, hhalves.page_left]
  · simpa [Node.isFull] using hl
  · rw [id_node, hhalves.page_right]
  · simpa [Node.isFull] using hr
  · rw [id_node, hhalves.page_left]
    exact hat
  · rw [id_node, hhalves.page_right]
    exact hbehind
  · rwa [id_node] at hqc

namespace SplitUnder

variable {answer : Node × Int32}

/-- The separator is at its place in the parent. -/
theorem separator (h : SplitUnder f n i m answer g) (hi : i ≤ n.keys.length) :
    answer.1.keys[i]? = some answer.2 := by
  rw [h.parent, Node.withChild, List.getElem?_insertIdx_self, if_pos hi]

/-- **The half that a key belongs to** is at its place in the parent. -/
theorem exists_half (h : SplitUnder f n i m answer g) (key : Int32) :
    ∃ half, IsHalf f g m half ∧
      answer.1.children[if answer.2 ≤ key then i + 1 else i]? = some half.id := by
  obtain ⟨l, r, hl, hr, hat, hbehind⟩ := h.halves
  split
  · exact ⟨r, hr, hbehind⟩
  · exact ⟨l, hl, hat⟩

end SplitUnder

end PageFile

namespace Careful

open RowIndex.Tree

variable {f : PageFile}

/-- **A full child is split with all tests passed**, unless a number outgrows its word. -/
theorem follows_splitChild (hf : f.InUse) {n m : Node} {i : Nat} (hn : f.record.isAllocated n.id)
    (hi : i ≤ n.keys.length)
    (hfit : ∀ separator sibling, (n.withChild i separator sibling).defect? = none)
    (hchild : n.children[i]? = some m.id) (hm : f.readPage m.id = .ok m) (hne : m.id ≠ n.id)
    (hfull : m.isFull) :
    Follows Breach.IsOverflow (PageFile.SplitUnder f n i m) (splitChild n i m)
      (PageFile.splitChild n i m) f := by
  have hmfit := PageFile.defect?_of_readPage hm
  have hkeys : m.keys.length = Layout.maxKeys :=
    Nat.le_antisymm ((Node.defect?_eq_none_iff m).1 hmfit).1 (of_decide_eq_true hfull)
  have hrow : Layout.minDegree < m.rowLength :=
    Nat.lt_of_lt_of_le (by rw [hkeys]; decide) (length_keys_le_rowLength hmfit)
  have hi' : i + 1 ≤ n.children.length := (List.getElem?_eq_some_iff.1 hchild).1
  obtain ⟨c, rfl⟩ := exists_node_eq hmfit
  refine Follows.imp (P := fun _ g => g.InUse) ?_ fun answer g hrun hg =>
    PageFile.splitUnder_of_runOn hg hn (fun separator => hfit separator _) hchild hm hne hfull hrun
  refine follows_demand_of hkeys (follows_bind (follows_allocate hf) ?_)
  rintro sibling g₀ ⟨rfl, hallocated, hg₀⟩
  obtain ⟨l, separator, r, -, hsplit, ⟨-, hlfits⟩, -, hrfits⟩ := exists_halves hmfit hfull f.nextPage
  refine follows_demand_of hrow ?_
  rw [hsplit]
  refine follows_demand_of hi (follows_demand_of hi' (follows_demand_of ?_ ?_))
  · exact ((Node.defect?_eq_none_iff _).1 (hfit separator f.nextPage)).1
  -- three nodes are written, and each of them fits
  refine follows_bind (follows_writePage hg₀ hlfits) ?_
  rintro - g₁ ⟨-, -, hg₁⟩
  refine follows_bind (follows_writePage hg₁ hrfits) ?_
  rintro - g₂ ⟨-, -, hg₂⟩
  refine follows_bind (follows_writePage hg₂ (hfit separator f.nextPage)) ?_
  rintro - g₃ ⟨-, -, hg₃⟩
  exact follows_pure hg₃

end Careful

/-! ## (6) Insertions and deletions -/

namespace Node

/-- A leaf with room for another entry fits with one entry more. -/
theorem defect?_withEntry {n : Node} (hfit : n.defect? = none) (hleaf : n.isLeaf)
    (hroom : ¬ n.isFull) (key : Int32) (value : RowId) : (n.withEntry key value).defect? = none := by
  obtain ⟨-, hrow⟩ := (defect?_eq_none_iff n).1 hfit
  have hlt : n.keys.length < Layout.maxKeys := by simpa [isFull] using hroom
  have hplace := frontCount_le (· ≤ key) n.keys
  obtain ⟨id, keys, body⟩ := n
  cases body with
  | internal => cases hleaf
  | leaf values next =>
    have hlength : values.length = keys.length := hrow
    refine (defect?_eq_none_iff _).2 ?_
    simp only [withEntry, Node.values] at hlt hplace ⊢
    rw [List.length_insertIdx_of_le_length hplace,
      List.length_insertIdx_of_le_length (by omega), hlength]
    exact ⟨hlt, rfl⟩

end Node

namespace Careful

open RowIndex.Tree Relation

variable {f g : PageFile} {n m : Node} {S : List PageId}

/-- A child is read with all tests passed. -/
theorem follows_readChild {stops : Breach → Prop} (hf : f.InUse) {children : List PageId} {i : Nat}
    {p : PageId} (hp : children[i]? = some p) :
    Follows stops (fun n g => g = f ∧ f.readPage n.id = .ok n ∧ n.id = p) (readChild children i)
      (Action.ask fun f => do f.readPage (← childAt children i)) f := by
  have hread : readChild children i = readPage p := by rw [readChild, hp]
  rw [hread]
  refine (follows_readPage hf p).congr ?_
  rw [Action.runOn_ask, Action.runOn_ask]
  exact congrArg (·, f) (PageFile.read_childAt hp f)

/-- **Below half of a child that was split the way is clear** where it was below the child. -/
theorem clearBelow_half {half : Node} {i : Nat} {answer : Node × Int32}
    (hsplit : PageFile.SplitUnder f n i m answer g) (hhalf : PageFile.IsHalf f g m half)
    (hm : f.readPage m.id = .ok m) (hbelow : f.ClearBelow m.id S)
    (hn : ¬ TransGen f.IsChild m.id n.id) : g.ClearBelow half.id S := by
  refine hbelow.transfer hm hhalf.read hhalf.children (fun q hq => ?_) ?_ fun q hq => ?_
  · refine hsplit.kept q (hbelow.allocated q hq) ?_ ?_
    · rintro rfl
      exact hn hq
    · rintro rfl
      exact hbelow.walk.loopless _ .refl hq
  · refine hhalf.page.imp_right fun hnew => ?_
    rw [hnew]
    exact PageFile.not_isAllocated_nextPage f
  · have hpages := hsplit.pages
    rw [Metadata.isAllocated_iff] at hq ⊢
    omega

/-- **An insertion below a node that has room passes all tests**, unless a number outgrows its word. -/
theorem follows_insertBelow (key : Int32) (value : RowId) {fuel : Nat} (hf : f.InUse)
    (hn : f.readPage n.id = .ok n) (hroom : ¬ n.isFull) (hclear : f.ClearBelow n.id S)
    (hfuel : S.length < fuel) :
    Follows Breach.IsOverflow (fun _ _ => True) (insertBelow key value fuel n)
      (PageFile.insertBelow key value fuel n) f := by
  -- every node on the way takes a page off the list, split or not
  induction fuel generalizing f n S with
  | zero => exact absurd hfuel (Nat.not_lt_zero _)
  | succ fuel ih =>
    have hfit := PageFile.defect?_of_readPage hn
    have hi : Route.insertion key n.keys ≤ n.keys.length := frontCount_le _ _
    obtain ⟨id, keys, values | children⟩ := n
    · have hrow : Route.insertion key keys ≤ values.length :=
        Nat.le_trans hi (length_keys_le_rowLength hfit)
      rw [insertBelow.eq_def, PageFile.insertBelow.eq_def]
      refine follows_demand_of hi (follows_demand_of hrow ?_)
      exact (follows_writePage hf (Node.defect?_withEntry hfit rfl hroom key value)).imp
        fun _ _ _ _ => trivial
    · have hinner : ¬ (Node.mk id keys (.internal children)).isLeaf := Bool.false_ne_true
      obtain ⟨p, hp, hplace⟩ := PageFile.exists_childAt hn hinner hi
      rw [insertBelow.eq_def, PageFile.insertBelow.eq_def]
      simp only
      refine follows_bind (follows_readChild hf hplace) ?_
      rintro m g ⟨rfl, hm, rfl⟩
      have hstep : g.IsChild id m.id := ⟨_, hn, hp⟩
      obtain ⟨hmem, hbelow⟩ := hclear.step hstep
      have hless := PageFile.length_erase_lt hmem hfuel
      by_cases hfull : m.isFull
      · rw [if_pos hfull, if_pos hfull]
        have hlt : keys.length < Layout.maxKeys := by simpa [Node.isFull] using hroom
        have hback : ¬ TransGen g.IsChild m.id id := fun hback =>
          hclear.walk.loopless id .refl (hback.head hstep)
        have hne : m.id ≠ id := fun h => hclear.walk.loopless id .refl (.single (h ▸ hstep))
        refine follows_bind (follows_splitChild hf (PageFile.isAllocated_of_readPage hn) hi
          (fun separator sibling => defect?_withChild hfit hinner hlt hi separator sibling)
          hplace hm hne hfull) ?_
        rintro ⟨parent, separator⟩ k hsplit
        have hkey := hsplit.separator hi
        obtain ⟨half, hhalf, hj⟩ := hsplit.exists_half key
        refine follows_demand_of hkey (follows_bind (follows_readChild hsplit.inUse hj) ?_)
        rintro half' k' ⟨rfl, hread, hid⟩
        obtain rfl : half' = half := by
          rw [hid, hhalf.read] at hread
          exact (Except.ok.inj hread).symm
        exact ih hsplit.inUse hread hhalf.room (clearBelow_half hsplit hhalf hm hbelow hback) hless
      · rw [if_neg hfull, if_neg hfull]
        exact ih hf hm hfull hbelow hless

/-- **Below a new root over the halves of the old one the way is clear**, with the new page on the
list. -/
theorem clearBelow_newRoot {k : PageFile} {answer : Node × Int32} (hallocated : PageFile.Allocated f g)
    (hS : ∀ p, p ∈ S ↔ f.record.isAllocated p) (hold : f.record.isAllocated m.id)
    (hm : g.readPage m.id = .ok m) (hclear : g.ClearBelow m.id S)
    (hsplit : PageFile.SplitUnder g (Node.overChild f.nextPage m.id) 0 m answer k) :
    k.ClearBelow answer.1.id (g.nextPage :: S) := by
  have hparent : answer.1 = Node.overHalves f.nextPage m.id answer.2 g.nextPage := hsplit.parent
  have hid : answer.1.id = f.nextPage := by rw [hparent, Node.overHalves_eq]
  -- the new root is not on the list, so nothing leads to it
  have hnew : f.nextPage ∉ S := fun hmem => PageFile.not_isAllocated_nextPage f ((hS _).1 hmem)
  have hnext : g.record.isAllocated f.nextPage :=
    hallocated.isAllocated_nextPage (Metadata.one_le_pages_of_isAllocated hold)
  have hback : ¬ TransGen g.IsChild m.id f.nextPage := fun hreached =>
    hnew (hclear.walk.listed _ hreached hnext)
  refine PageFile.ClearBelow.above (by rw [hid]; exact hsplit.read) fun c hc => ?_
  -- its children are the two halves
  obtain ⟨half, hhalf, rfl⟩ : ∃ half, PageFile.IsHalf g k m half ∧ half.id = c := by
    obtain ⟨l, r, hl, hr, hat, hbehind⟩ := hsplit.halves
    rw [hparent, Node.overHalves_eq] at hc hat hbehind
    obtain rfl | hc := List.mem_cons.1 hc
    · exact ⟨l, hl, (Option.some.inj hat).symm⟩
    · exact ⟨r, hr, (Option.some.inj hbehind).symm.trans (List.mem_singleton.1 hc).symm⟩
  have hbelow := clearBelow_half hsplit hhalf hm hclear hback
  refine ⟨?_, PageFile.isAllocated_of_readPage hhalf.read, hbelow.mono (List.subset_cons_self _ _), ?_⟩
  · rcases hhalf.page with hpage | hpage
    · exact List.mem_cons_of_mem _ (by rw [hpage]; exact (hS _).2 hold)
    · exact hpage ▸ List.mem_cons_self
  · rw [hid]
    intro hreached
    rcases reflTransGen_iff_eq_or_transGen.1 hreached with heq | hreached
    · rcases hhalf.page with hpage | hpage
      · exact hnew (by rw [heq, hpage]; exact (hS _).2 hold)
      · exact PageFile.not_isAllocated_nextPage g (by rw [← hpage, ← heq]; exact hnext)
    · have hidk := PageFile.isAllocated_of_readPage hsplit.read
      exact hnew (hbelow.walk.listed _ hreached hidk)

/-- **A full root is split under a new one**, and the insertion goes on, with all tests passed. -/
theorem follows_insertRoot (key : Int32) (value : RowId) {fuel : Nat} (hf : f.InUse)
    (hn : f.readPage n.id = .ok n) (hfull : n.isFull) (hclear : f.ClearBelow n.id f.allocatedPages)
    (hfuel : f.pageCount < fuel) :
    Follows Breach.IsOverflow (fun _ _ => True)
      (do
        let id ← allocate
        let (parent, _) ← splitChild (Node.overChild id n.id) 0 n
        setRoot id
        insertBelow key value fuel parent)
      (do
        let id ← PageFile.allocate
        let (parent, _) ← PageFile.splitChild (Node.overChild id n.id) 0 n
        PageFile.setRoot id
        PageFile.insertBelow key value fuel parent) f := by
  have hold := PageFile.isAllocated_of_readPage hn
  refine follows_bind (follows_allocate hf) ?_
  rintro id g ⟨rfl, hallocated, hg⟩
  -- the pages are as before
  have hm : g.readPage n.id = .ok n := (hallocated.read _ hold).trans hn
  have hkept := hclear.transfer hn hm (List.Subset.refl _)
    (fun q hq => hallocated.read q (hclear.allocated q hq)) (Or.inl rfl)
    fun q hq => hallocated.isAllocated hq
  have hid := hallocated.isAllocated_nextPage (Metadata.one_le_pages_of_isAllocated hold)
  have hne : n.id ≠ f.nextPage := fun h => PageFile.not_isAllocated_nextPage f (h ▸ hold)
  refine follows_bind (follows_splitChild hg (n := Node.overChild f.nextPage n.id) hid (Nat.le_refl 0)
    (fun separator sibling => Node.defect?_overHalves f.nextPage n.id separator sibling) rfl hm hne
    hfull) ?_
  rintro ⟨parent, separator⟩ k hsplit
  have hbelow := clearBelow_newRoot hallocated (fun p => PageFile.mem_allocatedPages) hold hm hkept
    hsplit
  obtain rfl : parent = Node.overHalves f.nextPage n.id separator g.nextPage := hsplit.parent
  refine follows_bind (follows_setRoot hsplit.inUse (PageFile.isAllocated_of_readPage hsplit.read)) ?_
  rintro - k' ⟨rfl, hk'⟩
  have hread : (k.withRoot f.nextPage).readPage f.nextPage
      = .ok (Node.overHalves f.nextPage n.id separator g.nextPage) := by
    rw [PageFile.readPage_withRoot]
    exact hsplit.read
  refine follows_insertBelow key value hk' hread (Node.not_isFull_overHalves _ _ _ _)
    (hbelow.transfer hsplit.read hread (List.Subset.refl _) (fun q _ => PageFile.readPage_withRoot k _ q)
      (Or.inl rfl) fun q hq => hq) ?_
  have hcount := hf.one_le_pageCount
  rw [List.length_cons, PageFile.length_allocatedPages]
  omega

/-- **An insertion passes all tests**, unless a number outgrows its word, if nothing below the root leads
back or out of the file. -/
theorem follows_insertValue (key : Int32) (value : RowId) (hf : f.InUse)
    (hloop : Loopless f.IsChild f.root)
    (hallocated : ∀ q, TransGen f.IsChild f.root q → f.record.isAllocated q) :
    Follows Breach.IsOverflow (fun _ _ => True) (insertValue key value)
      (PageFile.insertValue key value) f := by
  have hcount := hf.one_le_pageCount
  have hbound := PageFile.lt_insertionBound f.pageCount
  refine follows_get_bind_get ?_
  by_cases hvalid : f.root.isValid
  · rw [if_pos hvalid, if_pos hvalid]
    have hclear := PageFile.clearBelow_allocatedPages hloop hallocated
    refine follows_bind (follows_readPage hf f.root) ?_
    rintro n g ⟨rfl, hn, hid⟩
    rw [← hid] at hclear ⊢
    by_cases hfull : n.isFull
    · rw [if_pos hfull, if_pos hfull]
      exact follows_insertRoot key value hf hn hfull hclear hbound
    · rw [if_neg hfull, if_neg hfull]
      refine follows_insertBelow key value hf hn hfull hclear ?_
      rw [PageFile.length_allocatedPages]
      omega
  · rw [if_neg hvalid, if_neg hvalid]
    have hone : 1 ≤ f.record.pages.toInt := ((Metadata.defect?_eq_none_iff f.record).1 hf.sound).1
    have hfit : ∀ id, (⟨id, [key], .leaf [value] .none⟩ : Node).defect? = none := fun _ => rfl
    refine follows_bind (follows_allocate hf) ?_
    rintro id g ⟨rfl, hnew, hg⟩
    refine follows_bind (follows_writePage hg (hfit f.nextPage)) ?_
    rintro - k ⟨rfl, hid, hk⟩
    exact (follows_setRoot hk hid).imp fun _ _ _ _ => trivial

/-- **A deletion passes all tests.** -/
theorem follows_clearFrom {stops : Breach → Prop} (targets : List RowId) (hf : f.InUse)
    (count i cleared : Nat) :
    Follows stops (fun _ _ => True) (clearFrom targets count i cleared)
      (PageFile.clearFrom targets count i cleared) f := by
  induction count generalizing f i cleared with
  | zero => exact follows_pure trivial
  | succ count ih =>
    refine follows_bind (follows_readPage hf _) ?_
    rintro n g ⟨rfl, hn, -⟩
    simp only
    split
    · refine follows_bind (follows_writePage hf
        (Node.defect?_clear (PageFile.defect?_of_readPage hn) targets)) ?_
      rintro - k ⟨-, -, hk⟩
      exact ih hk _ _
    · exact ih hf _ _

theorem follows_deleteValues {stops : Breach → Prop} (hf : f.InUse) (texts : List String) :
    Follows stops (fun _ _ => True) (deleteValues texts) (PageFile.deleteValues texts) f := by
  rw [deleteValues, PageFile.deleteValues]
  split
  · exact follows_pure trivial
  · exact follows_get_bind_get (follows_clearFrom _ hf _ _ _)

end Careful

/-! ## (7) Files of any content -/

namespace PageFile

open Relation

variable {f : PageFile}

/-- **What can be asked of a file** without a fault and with all tests passed. -/
structure SafeToUse (f : PageFile) : Prop where
  /-- A node that is read fits in its page: a leaf has a slot for each key, and an internal node has a
  child more than keys. -/
  fits : ∀ p n, f.readPage p = .ok n → n.defect? = none
  /-- Any page can be read. -/
  read : ∀ p, Careful.Follows (fun _ => False) (fun _ _ => True) (Careful.readPage p)
    (Action.ask (·.readPage p)) f
  /-- Any text can be looked for. -/
  contains : ∀ text, Faultless (f.contains text)
  /-- Any texts can be deleted. -/
  delete : ∀ texts, Careful.Follows (fun _ => False) (fun _ _ => True) (Careful.deleteValues texts)
    (PageFile.deleteValues texts) f
  /-- Without loops of children the tree can be descended and audited. -/
  descents : Loopless f.IsChild f.root → Faultless f.leftmostLeaf ∧ Faultless f.stats ∧
    Faultless f.verify
  /-- Without loops of the leaf chain besides, it can be searched and scanned. -/
  scans : Loopless f.IsChild f.root → (∀ p, ReflTransGen f.IsChild f.root p → Loopless f.IsNext p) →
    (∀ key, Faultless (f.search key)) ∧ (∀ low high, Faultless (f.range low high)) ∧
    Faultless f.entries
  /-- Without loops of children, and with all of them in the file, anything can be inserted, unless a
  number outgrows its word. -/
  insert : Loopless f.IsChild f.root →
    (∀ q, TransGen f.IsChild f.root q → f.record.isAllocated q) →
    ∀ key text, Careful.Follows Breach.IsOverflow (fun _ _ => True) (Careful.insert key text)
      (PageFile.insert key text) f
  /-- An index that passes its audit has nothing that could stand in the way. -/
  audited : ∀ s, f.verify = .ok s →
    (∀ key, Faultless (f.search key)) ∧ (∀ low high, Faultless (f.range low high)) ∧
    Faultless f.entries ∧
    ∀ key text, Careful.Follows Breach.IsOverflow (fun _ _ => True) (Careful.insert key text)
      (PageFile.insert key text) f

/-- **A file in use is safe to use.** -/
theorem InUse.safeToUse (hf : f.InUse) : f.SafeToUse where
  fits _ _ := defect?_of_readPage
  read p := (Careful.follows_readPage hf p).imp fun _ _ _ _ => trivial
  contains := faultless_contains f
  delete := Careful.follows_deleteValues hf
  descents hloop := ⟨faultless_leftmostLeaf hf.one_le_pageCount hloop,
    faultless_stats hf.one_le_pageCount hloop, faultless_verify hf.one_le_pageCount hloop⟩
  scans hloop hchain := ⟨faultless_search hf.one_le_pageCount hloop hchain,
    faultless_range hf.one_le_pageCount hloop hchain,
    faultless_entries hf.one_le_pageCount hloop hchain⟩
  insert hloop hallocated key text :=
    Careful.follows_insertValue key (RowId.ofText text) hf hloop hallocated
  audited s hs := by
    obtain ⟨hloop, hchain, hallocated⟩ := loopless_of_verify hs
    exact ⟨faultless_search hf.one_le_pageCount hloop hchain,
      faultless_range hf.one_le_pageCount hloop hchain,
      faultless_entries hf.one_le_pageCount hloop hchain, fun key text =>
        Careful.follows_insertValue key (RowId.ofText text) hf hloop hallocated⟩

/-- **No content of a file makes an operation fault.** Opening comes to a file or an error, and the file
is safe to use, after any calls. Keys out of order do no harm, since every route takes a child that is
there. -/
theorem content_never_breaches (host : Host) (path : String) (image : FileImage) (sizing : Sizing) :
    Faultless (openImage host path image sizing) ∧
    ∀ f, openImage host path image sizing = .ok f → ∀ calls, (f.afterCalls calls).SafeToUse :=
  ⟨faultless_openImage host path image sizing,
    fun _ hopen calls => ((inUse_openImage hopen).afterCalls calls).safeToUse⟩

namespace Crowded

variable {p : PageId} (h : Crowded f p)

include h

/-- No leaf follows on another. -/
theorem loopless_isNext (q : PageId) : Loopless f.IsNext q := by
  have hnone : ¬ f.record.isAllocated .none := by
    rw [h.record]
    decide
  refine .of_next ?_
  rintro r ⟨n, hn, rfl⟩
  rcases h.eq_of_readPage hn with rfl | rfl
  · exact loopless_isNext_of_not_isAllocated hnone
  · exact loopless_isNext_of_not_isAllocated hnone

end Crowded

/-- All children of the full root may be one leaf. -/
theorem content_never_breaches_crowdedFile :
    ∃ f, openImage default "crowded" (crowdedFile ⟨2⟩).flushed.image .default = .ok f ∧
      f.readPage f.root = .ok (crowdedRoot ⟨2⟩) ∧ (crowdedRoot ⟨2⟩).isFull ∧
      Faultless f.verify ∧ Faultless f.entries ∧
      ∀ key text, Careful.Follows Breach.IsOverflow (fun _ _ => True) (Careful.insert key text)
        (PageFile.insert key text) f := by
  obtain ⟨f, hopen, h, -⟩ := exists_openImage_crowdedFile ⟨2⟩
  have hroot : f.root = ⟨1⟩ := by rw [PageFile.root, h.record]
  have hloop : Loopless f.IsChild f.root := fun q _ => h.no_loop (by decide) q
  have hallocated : ∀ q, TransGen f.IsChild f.root q → f.record.isAllocated q := by
    intro q hq
    obtain ⟨r, -, hstep⟩ := TransGen.tail'_iff.1 hq
    obtain ⟨rfl, -⟩ := h.eq_root_of_isChild (by decide) hstep
    obtain ⟨n, hn, hmem⟩ := hstep
    obtain rfl := Except.ok.inj (h.root.symm.trans hn)
    obtain rfl : q = ⟨2⟩ := (List.mem_cons.1 hmem).elim id List.eq_of_mem_replicate
    rw [h.record]
    decide
  have hsafe : f.SafeToUse := (content_never_breaches default "crowded" _ .default).2 f hopen []
  exact ⟨f, hopen, by rw [hroot]; exact h.root, by rfl, (hsafe.descents hloop).2.2,
    (hsafe.scans hloop fun p _ => h.loopless_isNext p).2.2, hsafe.insert hloop hallocated⟩

end PageFile

end RowIndex
