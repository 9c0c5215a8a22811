import RowIndex.PageFile.Basic

/-! # Creating and opening files

* **`PageFile.create`** — a new file without a tree, of a length that the system makes files of.
* **`PageFile.openImage`** — an existing file, which can be mapped, whose record is sound and does
  not count more pages than the file holds. -/

namespace RowIndex.PageFile

/-- **A new file**: at least one page long, page 0 holding the record of an empty tree. -/
def create (host : Host) (path : String) (sizing : Sizing) : Except Failure PageFile :=
  let length := max sizing.initialSize.toNat Layout.pageSize
  if host.makes length then
    let f : PageFile :=
      { path := path
        image := FileImage.empty.resize length
        capacity := length
        record := Metadata.empty
        sizing := sizing
        host := host
        dirty := true }
    .ok f.flushed
  else .error (.error .io)

/-- **Opens a file with the given content.** The length is looked at first, then the record, then
whether the counted pages fit. -/
def openImage (host : Host) (path : String) (image : FileImage) (sizing : Sizing) :
    Except Failure PageFile :=
  if image.length < Layout.pageSize then
    .error (.error (.corruptMetadata (.fileLength image.length)))
  else if host.maps image.length then
    match Metadata.read (image.page 0).bytes with
    | .error defect => .error (.error (.corruptMetadata defect))
    | .ok record =>
      if image.length < record.pageCount * Layout.pageSize then
        .error (.error (.corruptMetadata (.pagesBeyondFile record.pages image.length)))
      else .ok
        { path := path
          image := image
          capacity := image.length
          record := record
          sizing := sizing
          host := host
          dirty := false }
  else .error (.error .io)

end RowIndex.PageFile
