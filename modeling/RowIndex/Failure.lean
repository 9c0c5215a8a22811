import RowIndex.PageId
import RowIndex.Text.Hexadecimal

/-! # What can go wrong

* **`PageDefect`**, `MetadataDefect`, `Violation` — why a page, a metadata record or a whole tree
  is refused.
* **`Error`** — everything a caller is told about; `Error.message` is its wording.
* **`Fault`** — a broken precondition, which stops the operation without an answer.
* **`Failure`** — either of the two. -/

namespace RowIndex

/-! ## (1) Reasons -/

/-- **Why a page or a node is refused.** -/
inductive PageDefect where
  /-- A byte string that is not as long as a page. -/
  | length (bytes : Nat)
  /-- A node with more keys than a page can hold. -/
  | tooManyKeys (keys : Nat)
  /-- A leaf whose slots do not match its keys. -/
  | valueCount (values keys : Nat)
  /-- An internal node whose children do not match its keys. -/
  | childCount (children keys : Nat)
  /-- A stored key count that is negative or too large. -/
  | keyCount (stored : Int32)
  /-- A stored leaf flag that is neither 0 nor 1. -/
  | leafFlag (stored : UInt8)
  /-- A page that carries the number of another page. -/
  | otherId (stored : PageId)
  /-- A reason in the caller's own words. -/
  | note (text : String)
  deriving DecidableEq

/-- The wording of a page's defect. -/
def PageDefect.message : PageDefect → String
  | .length bytes =>
    "expected " ++ Decimal.ofNat Layout.pageSize ++ " bytes, got " ++ Decimal.ofNat bytes
  | .tooManyKeys keys =>
    Decimal.ofNat keys ++ " keys exceed the " ++ Decimal.ofNat Layout.maxKeys ++ "-key limit"
  | .valueCount values keys =>
    Decimal.ofNat values ++ " values for " ++ Decimal.ofNat keys ++ " keys"
  | .childCount children keys =>
    Decimal.ofNat children ++ " children for " ++ Decimal.ofNat keys ++ " keys"
  | .keyCount stored => "num_keys " ++ Decimal.ofInt32 stored ++ " out of range"
  | .leafFlag stored => "invalid leaf flag " ++ Decimal.ofNat stored.toNat
  | .otherId stored => "header claims page id " ++ Decimal.ofInt32 stored.val
  | .note text => text

/-- **Why a metadata record or the file under it is refused.** -/
inductive MetadataDefect where
  /-- Too few bytes for a record. -/
  | length (needed bytes : Nat)
  /-- A stored checksum other than the computed one. -/
  | checksum (stored computed : UInt32)
  /-- A page count below one. -/
  | pageCount (stored : Int32)
  /-- A root that is no allocated page. -/
  | root (stored : PageId) (pages : Int32)
  /-- A file shorter than one page. -/
  | fileLength (bytes : Nat)
  /-- More pages than the file has room for. -/
  | pagesBeyondFile (pages : Int32) (bytes : Nat)
  /-- A reason in the caller's own words. -/
  | note (text : String)
  deriving DecidableEq

/-- The wording of a metadata record's defect. -/
def MetadataDefect.message : MetadataDefect → String
  | .length needed bytes =>
    "metadata needs " ++ Decimal.ofNat needed ++ " bytes, got " ++ Decimal.ofNat bytes
  | .checksum stored computed =>
    "checksum mismatch: stored 0x" ++ Hexadecimal.padded 8 stored.toNat
      ++ ", computed 0x" ++ Hexadecimal.padded 8 computed.toNat
  | .pageCount stored => "num_pages " ++ Decimal.ofInt32 stored ++ " must be at least 1"
  | .root stored pages =>
    "root " ++ Decimal.ofInt32 stored.val ++ " outside allocated pages 1.."
      ++ Decimal.ofInt32 pages
  | .fileLength bytes => "file is " ++ Decimal.ofNat bytes ++ " bytes, smaller than one page"
  | .pagesBeyondFile pages bytes =>
    Decimal.ofInt32 pages ++ " pages do not fit in a " ++ Decimal.ofNat bytes ++ "-byte file"
  | .note text => text

/-- **A place where a tree is not well formed.** -/
inductive Violation where
  /-- A node whose keys descend somewhere. -/
  | keysOutOfOrder (page : PageId)
  /-- A node whose first key is below the bound its ancestors set. -/
  | keyBelowBound (page : PageId) (key bound : Int32)
  /-- A node whose last key is above the bound its ancestors set. -/
  | keyAboveBound (page : PageId) (key bound : Int32)
  /-- An internal node without keys. -/
  | noKeys (page : PageId)
  /-- A separator that is not the least key of the subtree to its right. -/
  | separator (page : PageId) (key : Int32) (least : Option Int32)
  /-- A leaf at another depth than the leftmost one. -/
  | leafDepth (page : PageId) (depth expected : Nat)
  /-- A leaf chain that goes on after as many leaves as the tree has. -/
  | chainContinues (leaves : Nat)
  /-- A leaf chain that leads to an internal node. -/
  | chainReachesInternal (page : PageId)
  /-- A leaf in the chain whose first key is below a key before it. -/
  | chainGoesBackwards (page : PageId) (key previous : Int32)
  /-- A leaf chain that ends without having met the leaves in their order. -/
  | chainOrder (visited leaves : Nat)
  /-- A violation in the caller's own words. -/
  | note (text : String)
  deriving DecidableEq

/-- The text of a key that may be missing. -/
def optionalKeyText : Option Int32 → String
  | some key => "Some(" ++ Decimal.ofInt32 key ++ ")"
  | none => "None"

/-- The wording of a violation. -/
def Violation.message : Violation → String
  | .keysOutOfOrder page => page.text ++ " keys out of order"
  | .keyBelowBound page key bound =>
    page.text ++ " key " ++ Decimal.ofInt32 key ++ " below bound " ++ Decimal.ofInt32 bound
  | .keyAboveBound page key bound =>
    page.text ++ " key " ++ Decimal.ofInt32 key ++ " above bound " ++ Decimal.ofInt32 bound
  | .noKeys page => page.text ++ " is an internal node without keys"
  | .separator page key least =>
    page.text ++ " separator " ++ Decimal.ofInt32 key
      ++ " differs from right subtree minimum " ++ optionalKeyText least
  | .leafDepth page depth expected =>
    "leaf " ++ page.text ++ " at depth " ++ Decimal.ofNat depth
      ++ ", expected " ++ Decimal.ofNat expected
  | .chainContinues leaves =>
    "leaf chain continues past " ++ Decimal.ofNat leaves ++ " leaves"
  | .chainReachesInternal page => "leaf chain reaches internal node " ++ page.text
  | .chainGoesBackwards page key previous =>
    "leaf chain goes backwards at " ++ page.text ++ ": " ++ Decimal.ofInt32 key
      ++ " after " ++ Decimal.ofInt32 previous
  | .chainOrder visited leaves =>
    "leaf chain visits " ++ Decimal.ofNat visited ++ " leaves out of " ++ Decimal.ofNat leaves
      ++ " in a different order"
  | .note text => text

/-! ## (2) Errors -/

/-- **Everything a caller is told about.** A node that is full is split, and a file that is full grows;
that the system refuses to let it grow is an error like any other refusal of it. -/
inductive Error where
  /-- The system refused. -/
  | io
  /-- There is no file to open. -/
  | indexFileNotFound (path : String)
  /-- There is a file already where one was to be created. -/
  | indexFileExists (path : String)
  /-- A page that was not allocated. -/
  | pageOutOfRange (page : PageId) (pages : Int32)
  /-- A page that does not decode, or a node that does not fit in one. -/
  | corruptPage (page : PageId) (defect : PageDefect)
  /-- A metadata record that cannot be trusted. -/
  | corruptMetadata (defect : MetadataDefect)
  /-- A text too long for a row identifier slot. -/
  | valueTooLong (bytes limit : Nat)
  /-- A text with a NUL in it. -/
  | valueContainsNul (position : Nat)
  /-- A tree that is not well formed. -/
  | structureViolation (violations : List Violation)
  deriving DecidableEq

/-- **The wording of an error.** -/
def Error.message : Error → String
  | .io => "I/O error"
  | .indexFileNotFound path => "index file not found: " ++ path
  | .indexFileExists path => "index file already exists: " ++ path
  | .pageOutOfRange page pages =>
    "page " ++ Decimal.ofInt32 page.val ++ " out of range (num_pages = "
      ++ Decimal.ofInt32 pages ++ ")"
  | .corruptPage page defect =>
    "page " ++ Decimal.ofInt32 page.val ++ " is corrupt: " ++ defect.message
  | .corruptMetadata defect => "corrupt metadata: " ++ defect.message
  | .valueTooLong bytes limit =>
    "value of " ++ Decimal.ofNat bytes ++ " bytes exceeds the " ++ Decimal.ofNat limit
      ++ "-byte limit"
  | .valueContainsNul position =>
    "value contains a NUL byte at offset " ++ Decimal.ofNat position
  | .structureViolation violations =>
    "structure violation: " ++ String.intercalate "; " (violations.map Violation.message)

/-! ## (3) Faults -/

/-- **A broken precondition**: the operation stops without an answer. -/
inductive Fault where
  /-- A buffer too short for a node header. -/
  | headerBuffer
  /-- A buffer that is not as long as a page. -/
  | pageBuffer
  /-- A buffer too short for what is read from it or written to it. -/
  | shortBuffer
  /-- A node with more keys than a page can hold. -/
  | nodeOverflow (keys : Nat)
  /-- A leaf whose slots do not match its keys. -/
  | leafCounts
  /-- An internal node whose children do not match its keys. -/
  | childCounts
  /-- A child asked for at a place where the node has none. -/
  | noSuchChild
  /-- A split asked of a node that is not full. -/
  | splitOfShortNode
  /-- A page count that no longer fits in its word. -/
  | pageCountOverflow
  /-- A length that no longer fits in its word. -/
  | lengthOverflow
  /-- Pointers that lead back to a page already visited, so that the walk never ends. -/
  | endlessWalk
  deriving DecidableEq

/-- The wording of a fault, for those that have one. -/
def Fault.message? : Fault → Option String
  | .headerBuffer => some "buffer too small for NodeHeader"
  | .pageBuffer => some "page buffer must be PAGE_SIZE bytes"
  | .nodeOverflow keys => some ("node overflow: " ++ Decimal.ofNat keys ++ " keys")
  | .leafCounts => some "leaf key/value count mismatch"
  | .childCounts => some "internal key/child count mismatch"
  | _ => none

/-- **Why an operation did not succeed.** -/
inductive Failure where
  /-- The caller is told. -/
  | error (e : Error)
  /-- A precondition was broken. -/
  | fault (f : Fault)
  deriving DecidableEq

end RowIndex
