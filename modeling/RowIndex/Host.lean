import RowIndex.FileImage

/-! # The system under a file

A system sets the length of a file, maps the file, writes out what is mapped and syncs the file, and it
may refuse each of these. What it answers is a parameter of everything that is done with a file.

* **`Host`** — the lengths that a system sets, maps, writes out and syncs.
* **`Host.makes`**, `Host.lengthens`, `Host.saves` — what a new file takes, what a longer one takes, and
  what a flush takes.
* **`Host.usual`** — the system that refuses as little as possible. -/

namespace RowIndex

/-- **What a system answers**, by the length that is asked about. -/
structure Host where
  /-- Whether a length can be set. -/
  sets : Nat → Bool
  /-- Whether a file of a length can be mapped. -/
  maps : Nat → Bool
  /-- Whether so much of a file can be written out as is mapped. -/
  writes : Nat → Bool
  /-- Whether a file of which so much is mapped can be synced. -/
  syncs : Nat → Bool

namespace Host

/-- **Whether a file of which so much is mapped can be flushed**: it is written out and synced. -/
def saves (host : Host) (mapped : Nat) : Bool :=
  host.writes mapped && host.syncs mapped

/-- **Whether a file of a length can be made**: its length is set, it is mapped, and it is flushed. -/
def makes (host : Host) (length : Nat) : Bool :=
  host.sets length && host.maps length && host.saves length

/-- **Whether a file of which so much is mapped can be made longer**: that much is written out, the
length is set, and the file is mapped again. -/
def lengthens (host : Host) (mapped length : Nat) : Bool :=
  host.writes mapped && host.sets length && host.maps length

theorem makes_iff {host : Host} {length : Nat} :
    host.makes length ↔ host.sets length ∧ host.maps length ∧ host.saves length := by
  rw [makes, Bool.and_eq_true, Bool.and_eq_true, and_assoc]

theorem lengthens_iff {host : Host} {mapped length : Nat} :
    host.lengthens mapped length ↔ (host.writes mapped ∧ host.sets length) ∧ host.maps length := by
  rw [lengthens, Bool.and_eq_true, Bool.and_eq_true]

/-- **The system that refuses as little as possible**: lengths that have no word, and files that have no
room in an address space. -/
def usual : Host where
  sets length := length ≤ FileImage.maxLength
  maps length := length ≤ FileImage.maxMapped
  writes _ := true
  syncs _ := true

instance : Inhabited Host := ⟨usual⟩

end Host

end RowIndex
