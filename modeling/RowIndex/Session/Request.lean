import RowIndex.PageFile.Report
import RowIndex.Tree.Audit
import RowIndex.Tree.TextKeys
import RowIndex.Tree.Values

/-! # Requests to open files, and their answers

* **`Access`** — how a file was opened: for its pages, as an index, or as an index that several
  handles share.
* **`Request`** — what can be asked of an open file; `Request.allows` says through which access.
* **`Answer`** — what comes back.
* **`Request.perform`** — the answer, and the file afterwards. -/

namespace RowIndex

/-- **How a file was opened.** -/
inductive Access where
  /-- For its pages. -/
  | pages
  /-- As an index. -/
  | index
  /-- As an index shared by several handles. -/
  | shared
  deriving DecidableEq

/-- **What can be asked of an open file.** -/
inductive Request where
  /-- The file's particulars. -/
  | info
  /-- One line that describes it. -/
  | debug
  /-- To store the record. -/
  | save
  /-- To insert under the key that a text spells. -/
  | insertText (key text : String)
  /-- To look up the key that a text spells. -/
  | searchText (key : String)
  /-- To delete one entry under the key that a text spells. -/
  | deleteText (key text : String)
  /-- Whether a row identifier is held. -/
  | contains (text : String)
  /-- To clear the slots of row identifiers. -/
  | deleteValues (texts : List String)
  /-- To insert under a key. -/
  | insert (key : Int32) (text : String)
  /-- To delete one entry under a key. -/
  | delete (key : Int32) (text : String)
  /-- To look up a key. -/
  | search (key : Int32)
  /-- To look up several keys. -/
  | searchMany (keys : List Int32)
  /-- The entries between two keys. -/
  | range (low high : Int32)
  /-- Their number and checksum. -/
  | rangeDigest (low high : Int32)
  /-- All entries. -/
  | entries
  /-- Their number and checksum. -/
  | entriesDigest
  /-- The first leaf. -/
  | leftmostLeaf
  /-- The root and the page count. -/
  | treeOutline
  /-- The statistics of the tree. -/
  | stats
  /-- The statistics of a tree without violations. -/
  | verify
  /-- To allocate pages. -/
  | allocate (count : Nat)
  /-- The node of a page. -/
  | readPage (id : PageId)
  /-- To write a node to its page. -/
  | writePage (node : Node)
  /-- To make a page the root. -/
  | setRoot (id : PageId)
  /-- A sketch of every page. -/
  | sketches

/-- **Through which access a request may be made.** -/
def Request.allows : Request → Access → Bool
  | .info, _ | .debug, _ | .save, _ | .readPage _, _ | .sketches, _ => true
  | .allocate _, access | .writePage _, access | .setRoot _, access => access = .pages
  | _, access => access ≠ .pages

/-- **A file's particulars.** -/
structure Info where
  /-- The root. -/
  root : PageId
  /-- The page count. -/
  pages : Int32
  /-- How much of it is mapped. -/
  capacity : Nat
  /-- Whether something was written since the last flush. -/
  dirty : Bool
  /-- How the file grows. -/
  sizing : Sizing
  /-- The name under which it was opened. -/
  path : String
  deriving DecidableEq

/-- The particulars of an open file. -/
def PageFile.info (f : PageFile) : Info :=
  ⟨f.root, f.record.pages, f.capacity, f.dirty, f.sizing, f.path⟩

/-- **Entries in two numbers**: how many, and the checksum of their text. -/
structure Digest where
  /-- How many entries. -/
  count : Nat
  /-- The CRC-32 of a line for each entry, its key and its text with a colon between. -/
  checksum : UInt32
  deriving DecidableEq

/-- The digest of a row of entries. -/
def Digest.ofEntries (entries : List (Int32 × String)) : Digest where
  count := entries.length
  checksum := crc32 (entries.foldl
    (fun text entry => text ++ Decimal.ofInt32 entry.1 ++ ":" ++ entry.2 ++ "\n") "").toUTF8

/-- **What comes back from a request.** -/
inductive Answer where
  /-- Nothing but success. -/
  | done
  /-- Yes or no. -/
  | flag (value : Bool)
  /-- A number. -/
  | count (value : Nat)
  /-- A number that may be missing. -/
  | optionalCount (value : Option Nat)
  /-- A line of text. -/
  | text (line : String)
  /-- Texts. -/
  | texts (lines : List String)
  /-- Texts for each of several keys. -/
  | textLists (lists : List (List String))
  /-- Keys with texts. -/
  | entries (entries : List (Int32 × String))
  /-- Keys with texts in two numbers. -/
  | digest (digest : Digest)
  /-- A file's particulars. -/
  | info (info : Info)
  /-- A node. -/
  | node (node : Node)
  /-- A node that may be missing. -/
  | optionalNode (node : Option Node)
  /-- The root and the page count. -/
  | outline (record : Metadata)
  /-- Statistics. -/
  | stats (stats : TreeStats)
  /-- What became of a run of allocations. -/
  | allocation (report : Allocation)
  /-- A sketch of every page. -/
  | sketches (pages : List PageSketch)
  /-- Bytes of a file. -/
  | bytes (content : ByteArray)
  /-- Checksums of pages. -/
  | checksums (sums : List UInt32)

/-- The answer to a question, the file unchanged. -/
def answered {α : Type} (f : PageFile) (result : Except Failure α) (answer : α → Answer) :
    Except Failure Answer × PageFile :=
  (result.map answer, f)

/-- The answer to an action, and the file afterwards. -/
def acted {α : Type} (f : PageFile) (action : Action α) (answer : α → Answer) :
    Except Failure Answer × PageFile :=
  let (result, g) := action.runOn f
  (result.map answer, g)

/-- The line that describes a file opened in some way. -/
def Access.debugText (access : Access) (f : PageFile) : String :=
  match access with
  | .pages => f.debugText
  | .index | .shared => "BPlusTreeIndex \x7b pager: " ++ f.debugText ++ " \x7d"

/-- **The answer to a request through some access, and the file afterwards.** A request that fails
half-way leaves behind what it changed. -/
def Request.perform (request : Request) (access : Access) (f : PageFile) :
    Except Failure Answer × PageFile :=
  match request with
  | .info => (.ok (.info f.info), f)
  | .debug => (.ok (.text (access.debugText f)), f)
  | .save => acted f PageFile.flush fun _ => .done
  | .insertText key text => acted f (PageFile.insertText key text) fun _ => .done
  | .searchText key => answered f (f.searchText key) .texts
  | .deleteText key text => acted f (PageFile.deleteText key text) fun _ => .done
  | .contains text => answered f (f.contains text) .flag
  | .deleteValues texts => acted f (PageFile.deleteValues texts) .count
  | .insert key text => acted f (PageFile.insert key text) fun _ => .done
  | .delete key text => acted f (PageFile.delete key text) fun _ => .done
  | .search key => answered f (f.search key) .texts
  | .searchMany keys => answered f (keys.mapM f.search) .textLists
  | .range low high => answered f (f.range low high) .entries
  | .rangeDigest low high =>
    answered f (f.range low high) fun found => .digest (Digest.ofEntries found)
  | .entries => answered f f.entries .entries
  | .entriesDigest => answered f f.entries fun found => .digest (Digest.ofEntries found)
  | .leftmostLeaf => answered f f.leftmostLeaf .optionalNode
  | .treeOutline => (.ok (.outline f.record), f)
  | .stats => answered f f.stats .stats
  | .verify => answered f f.verify .stats
  | .allocate count =>
    let (report, g) := f.allocateMany count
    (.ok (.allocation report), g)
  | .readPage id => answered f (f.readPage id) .node
  | .writePage node => acted f (PageFile.writePage node) fun _ => .done
  | .setRoot id => acted f (PageFile.setRoot id) fun _ => .done
  | .sketches => answered f f.sketches .sketches

end RowIndex
