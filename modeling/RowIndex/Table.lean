/-! # Tables

A list of keys with values, each key at most once.

* **`Table.find?`**, `Table.put`, `Table.erase` — looking up, replacing and removing;
  `find?_put` and `find?_erase` are their laws. -/

namespace RowIndex

/-- **Keys with values.** -/
abbrev Table (α β : Type) := List (α × β)

namespace Table

variable {α β : Type} [DecidableEq α]

/-- The value under a key. -/
def find? : Table α β → α → Option β
  | [], _ => none
  | (key, value) :: rest, k => if key = k then some value else find? rest k

/-- The table without a key. -/
def erase : Table α β → α → Table α β
  | [], _ => []
  | (key, value) :: rest, k => if key = k then erase rest k else (key, value) :: erase rest k

/-- The table with a value put under a key, in place of any other there. -/
def put (t : Table α β) (k : α) (value : β) : Table α β :=
  (k, value) :: erase t k

@[simp] theorem find?_nil (k : α) : find? ([] : Table α β) k = none := rfl

theorem find?_cons (key : α) (value : β) (rest : Table α β) (k : α) :
    find? ((key, value) :: rest) k = if key = k then some value else find? rest k := rfl

/-- **An erased key is not found**; every other key as before. -/
theorem find?_erase (t : Table α β) (k j : α) :
    find? (erase t k) j = if k = j then none else find? t j := by
  induction t with
  | nil => simp [erase]
  | cons entry rest ih =>
    obtain ⟨key, value⟩ := entry
    simp only [erase]
    split
    · next h => subst h; rw [ih, find?_cons]; split <;> simp_all
    · next h =>
      rw [find?_cons, find?_cons, ih]
      split
      · next h' => subst h'; rw [if_neg (Ne.symm h)]
      · rfl

/-- **A put value is found under its key**; every other key as before. -/
theorem find?_put (t : Table α β) (k : α) (value : β) (j : α) :
    find? (put t k value) j = if k = j then some value else find? t j := by
  rw [put, find?_cons]
  split
  · rfl
  · next h => rw [find?_erase, if_neg h]

end Table

end RowIndex
