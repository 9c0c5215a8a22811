import RowIndex.PageFile.Opening
import RowIndex.PathName
import RowIndex.Table

/-! # Directories of index files

* **`Directory`** — the files in reach, by name; no directories are ever made.
* **`Directory.place`** — where a path leads.
* **`Directory.create`**, `Directory.load`, `Directory.loadOrCreate` — index files at paths, on a host.
  None of them changes the directory when it fails. -/

namespace RowIndex

/-- **The files in reach, by name.** A file outside the working directory is named by its path from
there. -/
structure Directory where
  /-- The files. -/
  files : Table String FileImage

/-- **Where a path leads.** -/
inductive Place where
  /-- To an entry, which may or may not be there. -/
  | entry (name : String)
  /-- To a directory. -/
  | folder
  /-- Below a directory that is not there. -/
  | nowhere
  /-- Below a file. -/
  | belowFile
  /-- Past a name that no file can have. -/
  | unusable
  deriving DecidableEq

namespace Directory

/-- The directory without files. -/
def empty : Directory :=
  ⟨[]⟩

/-- The content of a named file. -/
def find? (d : Directory) (name : String) : Option FileImage :=
  d.files.find? name

/-- The directory with a file put under a name. -/
def put (d : Directory) (name : String) (image : FileImage) : Directory :=
  ⟨d.files.put name image⟩

/-- The directory without a name. -/
def erase (d : Directory) (name : String) : Directory :=
  ⟨d.files.erase name⟩

/-- Where a row of names leads from a directory. Whatever follows the name of an entry, if only an
empty name, asks for a directory in its place. -/
def walk (d : Directory) : Folder → List String → Place
  | _, [] => .folder
  | here, name :: rest =>
    match here.step name with
    | some next => d.walk next rest
    | none =>
      if !PathName.isShort name then .unusable
      else if rest.isEmpty then .entry (here.entryName name)
      else if (d.find? (here.entryName name)).isSome then .belowFile
      else .nowhere

/-- **Where a path leads.** The empty path leads nowhere. -/
def place (d : Directory) (path : String) : Place :=
  if !PathName.isUsable path then .unusable
  else if path = "" then .nowhere
  else d.walk (Folder.startOf path) (PathName.parts path)

/-- Whether something is at a path. -/
def isOccupied (d : Directory) (path : String) : Bool :=
  match d.place path with
  | .entry name => (d.find? name).isSome
  | .folder => true
  | .nowhere | .belowFile | .unusable => false

/-- **A file just opened**, and the directory with it. -/
structure Opened where
  /-- The open file. -/
  file : PageFile
  /-- Its name in the directory. -/
  name : String
  /-- The directory. -/
  directory : Directory

/-- **Creates an index file** where nothing is yet. -/
def create (d : Directory) (host : Host) (path : String) (sizing : Sizing) :
    Except Failure Opened :=
  match d.place path with
  | .entry name =>
    if (d.find? name).isSome then .error (.error (.indexFileExists path))
    else do
      let file ← PageFile.create host path sizing
      return ⟨file, name, d.put name file.image⟩
  | .folder => .error (.error (.indexFileExists path))
  | .nowhere | .belowFile | .unusable => .error (.error .io)

/-- **Opens an existing index file.** -/
def load (d : Directory) (host : Host) (path : String) (sizing : Sizing) :
    Except Failure Opened :=
  match d.place path with
  | .entry name =>
    match d.find? name with
    | none => .error (.error (.indexFileNotFound path))
    | some image => do
      let file ← PageFile.openImage host path image sizing
      return ⟨file, name, d⟩
  | .nowhere => .error (.error (.indexFileNotFound path))
  | .folder | .belowFile | .unusable => .error (.error .io)

/-- **Opens an index file, creating it where nothing is yet.** -/
def loadOrCreate (d : Directory) (host : Host) (path : String) (sizing : Sizing) :
    Except Failure Opened :=
  if d.isOccupied path then d.load host path sizing else d.create host path sizing

end Directory

end RowIndex
