import RowIndex.Host
import RowIndex.Metadata
import RowIndex.Node.Image
import RowIndex.Sizing

/-! # Files of pages

An open index file: its content, the metadata record in force, and how it grows. Nodes are read and
written page by page; pages are only ever allocated, never given back.

* **`PageFile`** — the open file; `capacity` is the length that is mapped.
* **`PageFile.readPage`** — the node of an allocated page.
* **`PageFile.withRoom`** — the file with room for one page more, or why there is none.
* **`PageFile.withFreshPage`**, `withNode`, `withRoot`, `flushed` — the file after a change.
* **`Action`** — an operation that may change the file and may fail; what was changed before a
  failure stays changed. `Action.runOn` gives the result and the file afterwards.
* **`PageFile.allocate`**, `writePage`, `setRoot`, `flush` — the elementary actions. All can fail, and
  `runOn_allocate` and its neighbours say what they leave behind: the file as it was, or with its record
  stored but not written out, or a longer one when the new length could be set but not mapped. -/

namespace RowIndex

/-- **An open index file.** -/
structure PageFile where
  /-- The name under which it was opened. -/
  path : String
  /-- Its content. -/
  image : FileImage
  /-- How much of it is mapped. The content is longer only after a growth that could not be
  mapped. -/
  capacity : Nat
  /-- The root and the page count in force. -/
  record : Metadata
  /-- How it grows. -/
  sizing : Sizing
  /-- The system that it lies on. -/
  host : Host
  /-- Whether something was written since the last flush. -/
  dirty : Bool

namespace PageFile

/-- The root of the tree. -/
def root (f : PageFile) : PageId :=
  f.record.root

/-- How many pages are allocated, page 0 included. -/
def pageCount (f : PageFile) : Nat :=
  f.record.pageCount

/-- **The node of an allocated page**, which must carry the page's own number. -/
def readPage (f : PageFile) (id : PageId) : Except Failure Node :=
  if f.record.isAllocated id then
    match Node.decode (f.image.page id.index).bytes with
    | .error e => .error (.error e)
    | .ok node =>
      if node.id = id then .ok node
      else .error (.error (.corruptPage id (.otherId node.id)))
  else .error (.error (.pageOutOfRange id f.record.pages))

/-- Stores the record in force over the start of page 0; the rest of the page is kept. -/
def storeRecord (f : PageFile) : PageFile :=
  { f with image := f.image.setPage 0 ((f.image.page 0).overwrite 0 f.record.image) }

@[simp] theorem record_storeRecord (f : PageFile) : f.storeRecord.record = f.record := rfl

@[simp] theorem sizing_storeRecord (f : PageFile) : f.storeRecord.sizing = f.sizing := rfl

@[simp] theorem host_storeRecord (f : PageFile) : f.storeRecord.host = f.host := rfl

@[simp] theorem path_storeRecord (f : PageFile) : f.storeRecord.path = f.path := rfl

@[simp] theorem dirty_storeRecord (f : PageFile) : f.storeRecord.dirty = f.dirty := rfl

@[simp] theorem capacity_storeRecord (f : PageFile) : f.storeRecord.capacity = f.capacity := rfl

/-- **Storing the record touches page 0 only.** -/
theorem page_storeRecord (f : PageFile) (k : Nat) :
    f.storeRecord.image.page k =
      if k = 0 then (f.image.page 0).overwrite 0 f.record.image else f.image.page k :=
  FileImage.page_setPage _ _ _ _

/-- **The file after it was flushed**: its record is stored, and it is clean. -/
def flushed (f : PageFile) : PageFile :=
  { f.storeRecord with dirty := false }

/-- What closing leaves behind when nobody asked for it: a clean file is not touched. -/
def released (f : PageFile) : PageFile :=
  if f.dirty then f.flushed else f

/-! ## (1) The file after a change -/

/-- The length needed to hold one page more than are allocated. -/
def neededLength (f : PageFile) : Nat :=
  (f.pageCount + 1) * Layout.pageSize

/-- The length of the file after it has grown: the headroom past the needed length. -/
def grownLength (f : PageFile) : Nat :=
  f.neededLength + f.sizing.growthIncrement.toNat

/-- **The file with room for one page more**: as it is when there is room, otherwise grown. The new
length has to fit in its word. What is mapped is written out first, the length is set then, and the file
is mapped again; each of these can fail. -/
def withRoom (f : PageFile) : Except Failure Unit × PageFile :=
  if f.neededLength ≤ f.capacity then (.ok (), f)
  else if UInt64.size ≤ f.grownLength then (.error (.fault .lengthOverflow), f)
  else if f.host.writes f.capacity ∧ f.host.sets f.grownLength then
    let longer := { f with image := f.image.resize f.grownLength }
    if f.host.maps f.grownLength then (.ok (), { longer with capacity := f.grownLength })
    else (.error (.error .io), longer)
  else (.error (.error .io), f)

/-- A page that holds nothing but its own number. -/
def freshPage (id : PageId) : Page :=
  Page.ofBytes (LittleEndian.pushInt ByteArray.empty id.val)

/-- The number of the page to be allocated next. -/
def nextPage (f : PageFile) : PageId :=
  ⟨f.record.pages⟩

/-- **The file with the next page cleared**, where there is room for it. The page holds nothing but its
own number, and is not counted yet. -/
def withClearedPage (f : PageFile) : PageFile :=
  { f with image := f.image.setPage f.nextPage.index (freshPage f.nextPage) }

@[simp] theorem record_withClearedPage (f : PageFile) : f.withClearedPage.record = f.record := rfl

@[simp] theorem capacity_withClearedPage (f : PageFile) :
    f.withClearedPage.capacity = f.capacity := rfl

/-- **Clearing the next page touches that page only.** -/
theorem page_withClearedPage (f : PageFile) (k : Nat) :
    f.withClearedPage.image.page k =
      if k = f.nextPage.index then freshPage f.nextPage else f.image.page k :=
  FileImage.page_setPage _ _ _ _

/-- **The file with one page more**, where there is room for it: the next page is cleared, and the record
in page 0 counts it. -/
def withFreshPage (f : PageFile) : PageFile :=
  storeRecord
    { f.withClearedPage with
      record := { f.record with pages := f.record.pages + 1 }
      dirty := true }

@[simp] theorem record_withFreshPage (f : PageFile) :
    f.withFreshPage.record = { f.record with pages := f.record.pages + 1 } := rfl

@[simp] theorem capacity_withFreshPage (f : PageFile) :
    f.withFreshPage.capacity = f.capacity := rfl

/-- Making room does not touch the record. -/
@[simp] theorem record_withRoom (f : PageFile) : f.withRoom.2.record = f.record := by
  simp only [withRoom]
  repeat' split
  all_goals rfl

/-- Nor does it leave the system. -/
@[simp] theorem host_withRoom (f : PageFile) : f.withRoom.2.host = f.host := by
  simp only [withRoom]
  repeat' split
  all_goals rfl

/-- **The file with a node on its page.** -/
def withNode (f : PageFile) (node : Node) : PageFile :=
  { f with image := f.image.setPage node.id.index node.image, dirty := true }

@[simp] theorem record_withNode (f : PageFile) (node : Node) :
    (f.withNode node).record = f.record := rfl

@[simp] theorem capacity_withNode (f : PageFile) (node : Node) :
    (f.withNode node).capacity = f.capacity := rfl

/-- **Writing a node touches its own page only.** -/
theorem page_withNode (f : PageFile) (node : Node) (k : Nat) :
    (f.withNode node).image.page k = if k = node.id.index then node.image else f.image.page k :=
  FileImage.page_setPage _ _ _ _

/-- **The file with another root**, which the record in page 0 names. -/
def withRoot (f : PageFile) (root : PageId) : PageFile :=
  storeRecord { f with record := { f.record with root := root }, dirty := true }

@[simp] theorem record_withRoot (f : PageFile) (root : PageId) :
    (f.withRoot root).record = { f.record with root := root } := rfl

@[simp] theorem capacity_withRoot (f : PageFile) (root : PageId) :
    (f.withRoot root).capacity = f.capacity := rfl

end PageFile

/-! ## (2) Actions -/

/-- **An operation on an open file.** -/
abbrev Action := ExceptT Failure (StateM PageFile)

namespace Action

variable {α β : Type}

/-- **Runs an action**: the result, and the file afterwards. -/
def runOn (action : Action α) (f : PageFile) : Except Failure α × PageFile :=
  (ExceptT.run action).run f

/-- Asks the file a question. -/
def ask (question : PageFile → Except Failure α) : Action α := do
  match question (← get) with
  | .ok answer => return answer
  | .error failure => throw failure

@[simp] theorem runOn_pure (a : α) (f : PageFile) :
    runOn (pure a : Action α) f = (.ok a, f) := rfl

@[simp] theorem runOn_throw (failure : Failure) (f : PageFile) :
    runOn (throw failure : Action α) f = (.error failure, f) := rfl

@[simp] theorem runOn_get (f : PageFile) : runOn (get : Action PageFile) f = (.ok f, f) := rfl

@[simp] theorem runOn_set (g f : PageFile) :
    runOn (set g : Action PUnit) f = (.ok ⟨⟩, g) := rfl

/-- **One action after another**: the second runs on the file that the first left behind, unless the
first failed. -/
theorem runOn_bind (action : Action α) (next : α → Action β) (f : PageFile) :
    runOn (action >>= next) f =
      match runOn action f with
      | (.ok a, g) => runOn (next a) g
      | (.error failure, g) => (.error failure, g) := by
  change (ExceptT.bindCont next (runOn action f).1).run (runOn action f).2 = _
  rcases h : runOn action f with ⟨_ | a, g⟩ <;> rfl

/-- A question leaves the file as it is. -/
@[simp] theorem runOn_ask (question : PageFile → Except Failure α) (f : PageFile) :
    runOn (ask question) f = (question f, f) := by
  rw [ask, runOn_bind, runOn_get]
  cases h : question f <;> simp only [h] <;> rfl

end Action

namespace PageFile

/-! ## (3) Elementary actions -/

/-- **Allocates the next page**: makes room for it, clears it and counts it. -/
def allocate : Action PageId := do
  let f ← get
  match f.withRoom with
  | (.error failure, g) =>
    set g
    throw failure
  | (.ok (), g) =>
    if f.record.pages = Int32.maxValue then
      set g.withClearedPage
      throw (.fault .pageCountOverflow)
    else
      set g.withFreshPage
      return f.nextPage

/-- **Writes a node to its page**, which must be allocated. -/
def writePage (node : Node) : Action Unit := do
  let f ← get
  if f.record.isAllocated node.id then
    match node.check with
    | .error e => throw (.error e)
    | .ok () => set (f.withNode node)
  else throw (.error (.pageOutOfRange node.id f.record.pages))

/-- **Makes a page the root**, or says that there is none. -/
def setRoot (root : PageId) : Action Unit := do
  let f ← get
  if root = .none ∨ f.record.isAllocated root then set (f.withRoot root)
  else throw (.error (.pageOutOfRange root f.record.pages))

/-- **Stores the record and flushes the file**, which is clean then. A file that cannot be flushed has
its record stored all the same. -/
def flush : Action Unit := do
  let f ← get
  if f.host.saves f.capacity then set f.flushed
  else
    set f.storeRecord
    throw (.error .io)

/-- What an allocation answers and leaves behind. -/
theorem runOn_allocate (f : PageFile) :
    allocate.runOn f =
      match f.withRoom with
      | (.error failure, g) => (.error failure, g)
      | (.ok (), g) =>
        if f.record.pages = Int32.maxValue then
          (.error (.fault .pageCountOverflow), g.withClearedPage)
        else (.ok f.nextPage, g.withFreshPage) := by
  rw [allocate, Action.runOn_bind, Action.runOn_get]
  simp only
  rcases f.withRoom with ⟨_ | _, g⟩
  · rfl
  · simp only
    split <;> rfl

/-- What writing a node answers and leaves behind. -/
theorem runOn_writePage (node : Node) (f : PageFile) :
    (writePage node).runOn f =
      if f.record.isAllocated node.id then
        match node.check with
        | .error e => (.error (.error e), f)
        | .ok () => (.ok (), f.withNode node)
      else (.error (.error (.pageOutOfRange node.id f.record.pages)), f) := by
  rw [writePage, Action.runOn_bind, Action.runOn_get]
  simp only
  split
  · cases node.check <;> rfl
  · rfl

/-- What setting the root answers and leaves behind. -/
theorem runOn_setRoot (root : PageId) (f : PageFile) :
    (setRoot root).runOn f =
      if root = .none ∨ f.record.isAllocated root then (.ok (), f.withRoot root)
      else (.error (.error (.pageOutOfRange root f.record.pages)), f) := by
  rw [setRoot, Action.runOn_bind, Action.runOn_get]
  simp only
  split <;> rfl

/-- What storing the record answers and leaves behind. -/
theorem runOn_flush (f : PageFile) :
    flush.runOn f =
      if f.host.saves f.capacity then (.ok (), f.flushed) else (.error (.error .io), f.storeRecord) := by
  rw [flush, Action.runOn_bind, Action.runOn_get]
  simp only
  split <;> rfl

end PageFile

end RowIndex
