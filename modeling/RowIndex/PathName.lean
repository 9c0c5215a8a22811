/-! # Path names

A path is a row of names between slashes and is walked from left to right. It starts at the working
directory, or at the root when it begins with a slash.

* **`PathName.isUsable`** — whether a path is handed on at all; `PathName.isShort` whether a single
  name is.
* **`Folder`** — a directory in reach: the working one, one above it, or the root.
* **`Folder.step`** — where an empty name, a dot or two dots lead; every other name is that of an
  entry.
* **`Folder.entryName`** — the one spelling under which an entry is filed. -/

namespace RowIndex

namespace PathName

/-- The greatest length of a path in bytes. -/
def maxPathBytes : Nat := 4095

/-- The greatest length of a single name in bytes. -/
def maxNameBytes : Nat := 255

/-- **Whether a path is handed on at all**: it has no NUL in it and is short enough. -/
def isUsable (path : String) : Bool :=
  !path.toList.contains '\x00' && path.utf8ByteSize ≤ maxPathBytes

/-- Whether a single name is short enough. -/
def isShort (name : String) : Bool :=
  name.utf8ByteSize ≤ maxNameBytes

/-- The names of a path, with an empty one before a leading and after a trailing slash. -/
def parts (path : String) : List String :=
  (path.toList.splitOn '/').map String.ofList

end PathName

/-- **A directory in reach.** -/
inductive Folder where
  /-- The directory so many levels above the working one, which is level 0. -/
  | above (levels : Nat)
  /-- The root, which is its own parent. -/
  | root
  deriving DecidableEq

namespace Folder

/-- The directory one level up. -/
def parent : Folder → Folder
  | above levels => above (levels + 1)
  | root => root

/-- Where a path starts. -/
def startOf (path : String) : Folder :=
  if path.toList.head? = some '/' then root else above 0

/-- **Where a name leads that is no entry's**: an empty name and a dot stay, two dots go up. None
for every other name. -/
def step (folder : Folder) (name : String) : Option Folder :=
  if name = "" ∨ name = "." then some folder
  else if name = ".." then some folder.parent
  else none

@[simp] theorem step_empty (folder : Folder) : folder.step "" = some folder := rfl

@[simp] theorem step_dot (folder : Folder) : folder.step "." = some folder := rfl

@[simp] theorem step_up (folder : Folder) : folder.step ".." = some folder.parent := rfl

/-- **The spelling under which an entry is filed**: its shortest path. -/
def entryName (folder : Folder) (name : String) : String :=
  match folder with
  | above levels => String.join (List.replicate levels "../") ++ name
  | root => "/" ++ name

@[simp] theorem entryName_above_zero (name : String) : (above 0).entryName name = name := by
  simp [entryName]

end Folder

end RowIndex
