import RowIndex.Directory
import RowIndex.Session.Request

/-! # Sessions

A session is a directory with files open under handles. Handles that share an index stand for one
open file; the file is released when the last of them goes.

* **`Session`** — the directory, the handles and the open files behind them.
* **`Step`** — what is done next: open a file, ask something through a handle, pass a handle on, or
  look at a file from outside.
* **`Session.run`** — the answer to a step, and the session afterwards. -/

namespace RowIndex

/-! ## (1) Steps -/

/-- **How a file is opened.** -/
inductive OpenMode where
  /-- It must not be there yet. -/
  | create
  /-- It must be there. -/
  | load
  /-- It is created when it is not there. -/
  | loadOrCreate
  deriving DecidableEq

/-- **What is done with a handle itself.** -/
inductive HandleRequest where
  /-- Let go of it. -/
  | drop
  /-- Store the record and let go of it. -/
  | close
  /-- Let others share the index. -/
  | share
  /-- Give another handle the same index. -/
  | clone (copy : String)
  /-- Take the index back if no other handle shares it. -/
  | unshare

/-- **What is done with a file from outside.** -/
inductive FileRequest where
  /-- Put a content in place of any other. -/
  | put (content : ByteArray)
  /-- Write bytes from some place on. -/
  | patch (start : Nat) (content : ByteArray)
  /-- Cut or extend. -/
  | resize (length : Nat)
  /-- Remove. -/
  | remove
  /-- The length. -/
  | length
  /-- Read bytes from some place on. -/
  | read (start count : Nat)
  /-- The checksums of the first pages. -/
  | checksums (pages : Nat)

/-- **A step of a session.** -/
inductive Step where
  /-- Open a file under a handle. -/
  | openFile (handle : String) (access : Access) (mode : OpenMode) (path : String)
      (sizing : Sizing)
  /-- Ask something of the file under a handle. -/
  | ask (handle : String) (request : Request)
  /-- Do something with a handle. -/
  | onHandle (handle : String) (request : HandleRequest)
  /-- Do something with a file. -/
  | onFile (path : String) (request : FileRequest)

/-- **Why a step was not done.** -/
inductive Refusal where
  /-- There is no such handle. -/
  | noSuchHandle
  /-- The handle was opened for something else. -/
  | wrongKind
  /-- The operation failed. -/
  | failed (failure : Failure)
  deriving DecidableEq

/-! ## (2) Sessions -/

/-- A file that is open, and its name in the directory while it has one. -/
structure OpenFile where
  /-- The file. -/
  file : PageFile
  /-- Its name in the directory. -/
  name : Option String

/-- **Flushes a file that is about to be let go of.** Nothing is left to flush afterwards, whatever
became of it. -/
def OpenFile.closed (o : OpenFile) : Except Failure Unit × OpenFile :=
  let (result, file) := PageFile.flush.runOn o.file
  (result, { o with file := { file with dirty := false } })

/-- What a handle stands for. -/
structure Handle where
  /-- How the file was opened. -/
  access : Access
  /-- Which open file it is. -/
  target : Nat

/-- **A directory with open files.** -/
structure Session where
  /-- The system that the files lie on. -/
  host : Host
  /-- The files. -/
  directory : Directory
  /-- The handles. -/
  handles : Table String Handle
  /-- The open files. -/
  openFiles : Table Nat OpenFile
  /-- How many files were ever opened. -/
  opened : Nat

namespace Session

/-- The session before its first step: an empty directory and no handles. -/
def start (host : Host) : Session :=
  ⟨host, Directory.empty, [], [], 0⟩

/-- Stores an open file, also in the directory while it has a name there. -/
def store (s : Session) (target : Nat) (o : OpenFile) : Session :=
  { s with
    openFiles := s.openFiles.put target o
    directory := match o.name with
      | some name => s.directory.put name o.file.image
      | none => s.directory }

/-- Whether some handle stands for an open file. -/
def isHeld (s : Session) (target : Nat) : Bool :=
  s.handles.any fun entry => entry.2.target == target

/-- **Releases an open file that no handle stands for any more.** -/
def releaseUnheld (s : Session) (target : Nat) : Session :=
  if s.isHeld target then s
  else
    match s.openFiles.find? target with
    | none => s
    | some o =>
      let s := s.store target { o with file := o.file.released }
      { s with openFiles := s.openFiles.erase target }

/-- **Lets go of a handle.** -/
def dropHandle (s : Session) (handle : String) : Session :=
  match s.handles.find? handle with
  | none => s
  | some h => { s with handles := s.handles.erase handle }.releaseUnheld h.target

/-- Opens a file under a handle. What the handle stood for is let go of first. -/
def openFile (s : Session) (handle : String) (access : Access) (mode : OpenMode) (path : String)
    (sizing : Sizing) : Except Refusal Answer × Session :=
  let s := s.dropHandle handle
  let result := match mode with
    | .create => s.directory.create s.host path sizing
    | .load => s.directory.load s.host path sizing
    | .loadOrCreate => s.directory.loadOrCreate s.host path sizing
  match result with
  | .error failure => (.error (.failed failure), s)
  | .ok opened =>
    let s : Session :=
      { host := s.host
        directory := opened.directory
        handles := s.handles.put handle ⟨access, s.opened⟩
        openFiles := s.openFiles.put s.opened ⟨opened.file, some opened.name⟩
        opened := s.opened + 1 }
    (.ok (.info opened.file.info), s)

/-- The handle of a name with the open file behind it. -/
def resolve? (s : Session) (handle : String) : Option (Handle × OpenFile) := do
  let h ← s.handles.find? handle
  let o ← s.openFiles.find? h.target
  return (h, o)

/-- Asks something of the file under a handle. -/
def ask (s : Session) (handle : String) (request : Request) : Except Refusal Answer × Session :=
  match s.resolve? handle with
  | none => (.error .noSuchHandle, s)
  | some (h, o) =>
    if request.allows h.access then
      let (result, file) := request.perform h.access o.file
      let s := s.store h.target { o with file := file }
      match result with
      | .ok answer => (.ok answer, s)
      | .error failure => (.error (.failed failure), s)
    else (.error .wrongKind, s)

/-- Does something with a handle. A shared handle that is asked to close is let go of, although the
request is refused; any other is let go of also when its file cannot be flushed. -/
def onHandle (s : Session) (handle : String) (request : HandleRequest) :
    Except Refusal Answer × Session :=
  match s.resolve? handle with
  | none => (.error .noSuchHandle, s)
  | some (h, o) =>
    match request, h.access with
    | .drop, _ => (.ok .done, s.dropHandle handle)
    | .close, .shared => (.error .wrongKind, s.dropHandle handle)
    | .close, _ =>
      let (result, o) := o.closed
      let s := (s.store h.target o).dropHandle handle
      match result with
      | .ok () => (.ok .done, s)
      | .error failure => (.error (.failed failure), s)
    | .share, .index =>
      (.ok .done, { s with handles := s.handles.put handle { h with access := .shared } })
    | .clone copy, .shared =>
      let replaced := s.handles.find? copy
      let s := { s with handles := s.handles.put copy h }
      match replaced with
      | none => (.ok .done, s)
      | some old => (.ok .done, s.releaseUnheld old.target)
    | .unshare, .shared =>
      let rest := { s with handles := s.handles.erase handle }
      if rest.isHeld h.target then (.ok (.flag false), rest)
      else
        (.ok (.flag true),
          { s with handles := s.handles.put handle { h with access := .index } })
    | _, _ => (.error .wrongKind, s)

/-- The session in which no open file has a given name any more. -/
def unlink (s : Session) (name : String) : Session :=
  { s with
    openFiles := s.openFiles.map fun entry =>
      if entry.2.name = some name then (entry.1, { entry.2 with name := none }) else entry }

/-- The checksums of the first `count` pages of a file. The last page is cut off where the file
ends. -/
def pageChecksums (image : FileImage) (count : Nat) : List UInt32 :=
  let pages := (image.length + (Layout.pageSize - 1)) / Layout.pageSize
  (List.range (min count pages)).map fun k =>
    crc32 ((image.page k).bytes.extract 0 (image.length - k * Layout.pageSize))

/-- Writes into a file from outside, which is then stored. What no longer fits below the greatest
length is left out, and the request is refused. -/
def patchFile (s : Session) (name : String) (image : FileImage) (start : Nat)
    (content : ByteArray) : Except Refusal Answer × Session :=
  if FileImage.maxLength < start then (.error (.failed (.error .io)), s)
  else
    let room := FileImage.maxLength - start
    let s := { s with directory := s.directory.put name (image.write start (content.extract 0 room)) }
    if content.size ≤ room then (.ok .done, s) else (.error (.failed (.error .io)), s)

/-- Does something with a file from outside. A directory has no length to tell and can only be read
as far as nothing is read. -/
def onFile (s : Session) (path : String) (request : FileRequest) :
    Except Refusal Answer × Session :=
  let refused := (.error (.failed (.error .io)), s)
  match s.directory.place path with
  | .entry name =>
    let replace (image : FileImage) : Session :=
      { s with directory := s.directory.put name image }
    match request, s.directory.find? name with
    | .put content, _ => (.ok .done, replace (FileImage.ofBytes content))
    | .length, image => (.ok (.optionalCount (image.map FileImage.length)), s)
    | .patch start content, some image => s.patchFile name image start content
    | .resize length, some image =>
      if length ≤ FileImage.maxLength then (.ok .done, replace (image.resize length)) else refused
    | .remove, some _ =>
      (.ok .done, { s.unlink name with directory := s.directory.erase name })
    | .read start count, some image =>
      if start ≤ FileImage.maxLength then (.ok (.bytes (image.read start count)), s) else refused
    | .checksums pages, some image => (.ok (.checksums (pageChecksums image pages)), s)
    | _, none => refused
  | .folder =>
    match request with
    | .length => (.ok (.optionalCount none), s)
    | .read start 0 =>
      if start ≤ FileImage.maxLength then (.ok (.bytes ByteArray.empty), s) else refused
    | .checksums 0 => (.ok (.checksums []), s)
    | _ => refused
  | .nowhere | .belowFile | .unusable =>
    match request with
    | .length => (.ok (.optionalCount none), s)
    | _ => refused

/-- **The answer to a step, and the session afterwards.** -/
def run (s : Session) : Step → Except Refusal Answer × Session
  | .openFile handle access mode path sizing => s.openFile handle access mode path sizing
  | .ask handle request => s.ask handle request
  | .onHandle handle request => s.onHandle handle request
  | .onFile path request => s.onFile path request

end Session

end RowIndex
