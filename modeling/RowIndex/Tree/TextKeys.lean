import RowIndex.Text.Decimal
import RowIndex.Tree.Insertion
import RowIndex.Tree.Lookup

/-! # Keys given as texts

A key may come as a text. One that is not a decimal number in the 32-bit range is passed over:
nothing is inserted, nothing is found.

* **`keyOf?`** — the key that a text spells.
* **`PageFile.insertText`**, `PageFile.searchText`, `PageFile.deleteText` — the operations.
* **`PageFile.delete`** — a single entry cannot be deleted; the request is passed over. -/

namespace RowIndex

/-- **The key that a text spells.** -/
def keyOf? (text : String) : Option Int32 :=
  Decimal.int32? text

namespace PageFile

/-- Passes over a request to delete a single entry. -/
def delete (_key : Int32) (_text : String) : Action Unit :=
  return ()

/-- **Inserts under the key that a text spells**, if it spells one. -/
def insertText (key text : String) : Action Unit :=
  match keyOf? key with
  | some key => insert key text
  | none => return ()

/-- **The texts under the key that a text spells**, none if it spells no key. -/
def searchText (f : PageFile) (key : String) : Except Failure (List String) :=
  match keyOf? key with
  | some key => f.search key
  | none => .ok []

/-- Passes over a request to delete a single entry under the key that a text spells. -/
def deleteText (key text : String) : Action Unit :=
  match keyOf? key with
  | some key => delete key text
  | none => return ()

end PageFile

end RowIndex
