import RowIndex.Session.Basic
import RowIndex.Proofs.RowIdScans

/-! # Clients of a shared index

Handles that share an index take turns on one tree. A client that has its keys and its row identifiers
to itself does not notice the others: its entries are a part of the list that the index keeps, and what
it asks depends on this part only.

* **`Errand`** — what a client asks; `Errand.answer` and `Errand.after` serve it from a list of entries.
* **`Tended.serve`** — an index serves errands as its list of entries does, unless a growth fails.
* **`Parted`** — the entries of a client, told by their keys, are those with its row identifiers.
* **`answer_filter`**, `after_filter` — a client sees its own entries only.
* **`Session.Shares`** — handles that stand for one open file; `sharesNew_of_create` and
  `SharesNew.clones` make them.
* **`Session.replies`** — what clients that take turns are told; `Shares.turn` is one turn,
  `replies_filter` a run of them.
* **`clients_answered_as_alone`** — in any interleaving each client is answered as if it were alone. -/

namespace RowIndex

/-! ## (1) Errands -/

/-- **What a client asks of a shared index.** -/
inductive Errand where
  /-- To insert under the key that a text spells. -/
  | insert (key text : String)
  /-- To look up the key that a text spells. -/
  | search (key : String)
  /-- Whether a row identifier is held. -/
  | contains (text : String)
  /-- To clear the slots of row identifiers. -/
  | deleteValues (texts : List String)

namespace Errand

/-- The request that is made for an errand. -/
def request : Errand → Request
  | .insert key text => .insertText key text
  | .search key => .searchText key
  | .contains text => .contains text
  | .deleteValues texts => .deleteValues texts

/-- **The key that an errand names**, if it spells one. -/
def key? : Errand → Option Int32
  | .insert key _ | .search key => keyOf? key
  | .contains _ | .deleteValues _ => none

/-- The texts that an errand names. -/
def texts : Errand → List String
  | .insert _ text | .contains text => [text]
  | .search _ => []
  | .deleteValues texts => texts

/-- Whether an errand may need room. -/
def isInsert : Errand → Bool
  | .insert _ _ => true
  | _ => false

/-- **The row identifiers that an errand names**, without the empty slot. -/
def values (e : Errand) : List RowId :=
  PageFile.targetsOf e.texts

/-- A shared handle lets all errands through. -/
theorem allows_request (e : Errand) : e.request.allows .shared = true := by
  cases e <;> rfl

/-- **The answer from a list of entries.** -/
def answer (L : List (Int32 × RowId)) : Errand → Answer
  | .insert _ _ => .done
  | .search key =>
    .texts (match keyOf? key with
      | some k => (L.filter fun e => e.1 == k && isLive e).map fun e => e.2.text
      | none => [])
  | .contains text =>
    .flag (!(RowId.ofText text).isTombstone && (L.map (·.2)).contains (RowId.ofText text))
  | .deleteValues texts => .count (L.countP fun e => (PageFile.targetsOf texts).contains e.2)

/-- **The entries after an errand.** -/
def after (L : List (Int32 × RowId)) : Errand → List (Int32 × RowId)
  | .insert key text =>
    match keyOf? key with
    | some k => entriesWith k (RowId.ofText text) L
    | none => L
  | .search _ | .contains _ => L
  | .deleteValues texts => L.map fun e => (e.1, e.2.cleared (PageFile.targetsOf texts))

end Errand

/-- **Whether a failure reports that the file did not grow.** -/
def Failure.OfGrowth (failure : Failure) : Prop :=
  failure = .error .io ∨ failure = .fault .pageCountOverflow ∨ failure = .fault .lengthOverflow

/-! ## (2) What an index answers -/

/-- **A key divides a list of entries** whose keys ascend. -/
theorem filter_le_append_filter_lt {L : List (Int32 × RowId)}
    (h : (L.map (·.1)).Pairwise (· ≤ ·)) (key : Int32) :
    L.filter (fun e => e.1 ≤ key) ++ L.filter (fun e => key < e.1) = L := by
  induction L with
  | nil => rfl
  | cons e L ih =>
    obtain ⟨hhead, htail⟩ := List.pairwise_cons.1 (List.map_cons ▸ h)
    by_cases hkey : e.1 ≤ key
    · have hnot : ¬ key < e.1 := Int32.not_lt.2 hkey
      rw [List.filter_cons_of_pos (by simpa using hkey), List.filter_cons_of_neg (by simpa using hnot),
        List.cons_append, ih htail]
    · -- all later keys are above the key too
      have hlt := Int32.not_le.1 hkey
      have habove : ∀ d ∈ e :: L, key < d.1 := by
        intro d hd
        rcases List.mem_cons.1 hd with rfl | hd
        · exact hlt
        · exact Int32.lt_of_lt_of_le hlt (hhead d.1 (List.mem_map.2 ⟨d, hd, rfl⟩))
      rw [List.filter_eq_nil_iff.2 fun d hd hle =>
          Int32.not_le.2 (habove d hd) (of_decide_eq_true hle),
        List.filter_eq_self.2 fun d hd => decide_eq_true (habove d hd), List.nil_append]

namespace PageFile

open RowIndex.Tree

variable {f g : PageFile} {L : List (Int32 × RowId)}

/-- The keys of what a file lists ascend. -/
theorem Lists.sorted (h : f.Lists L) : (L.map (·.1)).Pairwise (· ≤ ·) := by
  cases h with
  | nothing => exact List.Pairwise.nil
  | tree hcarries => exact hcarries.ordered.keysFit_entries.sorted

theorem NoRoom.ofGrowth {failure : Failure} (h : f.NoRoom failure) : failure.OfGrowth := by
  cases h with
  | uncountable => exact Or.inr (Or.inl rfl)
  | overlong => exact Or.inr (Or.inr rfl)
  | refused => exact Or.inl rfl

namespace Tended

theorem one_le_pages {spare : Node → Prop} (h : Tended spare f L) : 1 ≤ f.record.pages.toInt := by
  cases h with
  | nothing _ hpages => exact Int.le_of_eq hpages.symm
  | tree hcarries => exact Metadata.one_le_pages_of_isAllocated hcarries.isAllocated_root

/-- An insertion succeeds, or a growth fails. -/
theorem serveInsert (h : Tended Bare f L) (key : Int32) (text : String) :
    (∃ g, (insert key text).runOn f = (.ok (), g) ∧
      Tended Bare g (entriesWith key (RowId.ofText text) L)) ∨
    ∃ failure g, (insert key text).runOn f = (.error failure, g) ∧ failure.OfGrowth := by
  rcases hrun : (insert key text).runOn f with ⟨failure | ⟨⟩, g⟩
  · obtain ⟨hnoroom, -⟩ := failed_of_insertValue h.lists h.one_le_pages hrun
    exact Or.inr ⟨failure, g, rfl, hnoroom.ofGrowth⟩
  · exact Or.inl ⟨g, rfl, h.inserted_entriesWith hrun⟩

/-- What a search for a row identifier answers, from the entries. -/
theorem contains_eq (h : Tended Bare f L) (text : String) :
    f.contains text = .ok (!(RowId.ofText text).isTombstone &&
      (L.map (·.2)).contains (RowId.ofText text)) := by
  rw [contains_eq_ok_iff h.readable, h.holdsSlot_iff, Bool.and_eq_true, Bool.not_eq_true',
    List.contains_iff_mem, Bool.not_eq_true]

/-- **An index serves an errand as its list of entries does**, unless it has to grow and cannot. -/
theorem serve (h : Tended Bare f L) (e : Errand) :
    (∃ g, e.request.perform .shared f = (.ok (e.answer L), g) ∧ Tended Bare g (e.after L)) ∨
    e.isInsert ∧
      ∃ failure g, e.request.perform .shared f = (.error failure, g) ∧ failure.OfGrowth := by
  cases e with
  | insert key text =>
    simp only [Errand.request, Request.perform, acted, insertText, Errand.answer, Errand.after]
    cases keyOf? key with
    | none => exact Or.inl ⟨f, rfl, h⟩
    | some k =>
      rcases h.serveInsert k text with ⟨g, hrun, htended⟩ | ⟨failure, g, hrun, hgrowth⟩
      · simp only [hrun]
        exact Or.inl ⟨g, rfl, htended⟩
      · simp only [hrun]
        exact Or.inr ⟨rfl, failure, g, rfl, hgrowth⟩
  | search key =>
    refine Or.inl ⟨f, ?_, h⟩
    simp only [Errand.request, Request.perform, answered, searchText, Errand.answer]
    cases keyOf? key with
    | none => rfl
    | some k =>
      simp only [h.lists.search_eq]
      rfl
  | contains text =>
    refine Or.inl ⟨f, ?_, h⟩
    simp only [Errand.request, Request.perform, answered, Errand.answer]
    rw [h.contains_eq]
    rfl
  | deleteValues texts =>
    obtain ⟨g, hrun, htended⟩ := h.deleteValues texts
    refine Or.inl ⟨g, ?_, htended⟩
    simp only [Errand.request, Request.perform, acted, Errand.answer]
    rw [hrun]
    rfl

end Tended

end PageFile

/-! ## (3) The entries of one client -/

section Client

variable {K : Int32 → Bool} {V : RowId → Bool} {L : List (Int32 × RowId)}

/-- **The entries of a client**, told by their keys `K`, are those with its row identifiers `V`, apart
from empty slots. -/
def Parted (K : Int32 → Bool) (V : RowId → Bool) (L : List (Int32 × RowId)) : Prop :=
  ∀ e ∈ L, e.2.isTombstone ∨ K e.1 = V e.2

/-- **An errand on one side**: that of the client, or that of all others. -/
structure Errand.OnSide (K : Int32 → Bool) (V : RowId → Bool) (side : Bool) (e : Errand) : Prop where
  /-- Its key is on that side. -/
  key : ∀ k, e.key? = some k → K k = side
  /-- Its row identifiers are. -/
  values : ∀ v ∈ e.values, V v = side

/-- What is to be cleared is no empty slot. -/
theorem not_isTombstone_of_contains {texts : List String} {v : RowId}
    (h : (PageFile.targetsOf texts).contains v) : ¬ v.isTombstone := by
  have hmem := (List.mem_filter.1 (List.contains_iff_mem.1 h)).2
  simpa using hmem

/-- A row identifier that is not the empty slot is named. -/
theorem mem_targetsOf_singleton {text : String} (h : ¬ (RowId.ofText text).isTombstone) :
    RowId.ofText text ∈ PageFile.targetsOf [text] :=
  List.mem_filter.2 ⟨List.mem_singleton_self _, by simpa using h⟩

namespace Parted

/-- An entry with a row identifier from one side is on that side. -/
theorem side {side : Bool} (h : Parted K V L) {e : Int32 × RowId} (he : e ∈ L)
    (hlive : ¬ e.2.isTombstone) (hvalue : V e.2 = side) : K e.1 = side :=
  ((h e he).resolve_left hlive).trans hvalue

/-- **An errand on either side leaves the entries parted.** -/
theorem after {side : Bool} {e : Errand} (h : Parted K V L) (he : e.OnSide K V side) :
    Parted K V (e.after L) := by
  cases e with
  | insert key text =>
    rw [Errand.after]
    split
    · rename_i k hkey
      intro d hd
      rcases List.mem_append.1 hd with hd | hd
      · exact h d (List.mem_filter.1 hd).1
      rcases List.mem_cons.1 hd with rfl | hd
      · by_cases hempty : (RowId.ofText text).isTombstone
        · exact Or.inl hempty
        · exact Or.inr ((he.key k hkey).trans (he.values _ (mem_targetsOf_singleton hempty)).symm)
      · exact h d (List.mem_filter.1 hd).1
    · exact h
  | search key => exact h
  | contains text => exact h
  | deleteValues texts =>
    intro d hd
    obtain ⟨c, hc, rfl⟩ := List.mem_map.1 hd
    by_cases hcleared : (PageFile.targetsOf texts).contains c.2
    · left
      simp only [RowId.cleared, if_pos hcleared]
      rfl
    · simp only [RowId.cleared, if_neg hcleared]
      exact h c hc

end Parted

/-- **What a client asks depends on its own entries only.** -/
theorem answer_filter {e : Errand} (h : Parted K V L) (he : e.OnSide K V true) :
    e.answer (L.filter fun d => K d.1) = e.answer L := by
  cases e with
  | insert key text => rfl
  | search key =>
    refine congrArg Answer.texts ?_
    split
    · rename_i k hkey
      rw [List.filter_filter]
      refine congrArg (List.map _) (List.filter_congr fun d _ => ?_)
      -- an entry with the key is on the client's side
      by_cases hd : d.1 = k
      · rw [hd, he.key k hkey, Bool.and_true]
      · rw [beq_eq_false_iff_ne.2 hd, Bool.false_and, Bool.false_and]
    · rfl
  | contains text =>
    refine congrArg Answer.flag ?_
    by_cases hempty : (RowId.ofText text).isTombstone
    · rw [hempty]
      rfl
    · have hvalue := he.values _ (mem_targetsOf_singleton hempty)
      refine congrArg (!(RowId.ofText text).isTombstone && ·) ?_
      rw [Bool.eq_iff_iff, List.contains_iff_mem, List.contains_iff_mem, List.mem_map, List.mem_map]
      constructor
      · rintro ⟨d, hd, hslot⟩
        exact ⟨d, (List.mem_filter.1 hd).1, hslot⟩
      · rintro ⟨d, hd, hslot⟩
        rw [← hslot] at hempty hvalue
        exact ⟨d, List.mem_filter.2 ⟨hd, h.side hd hempty hvalue⟩, hslot⟩
  | deleteValues texts =>
    refine congrArg Answer.count ?_
    rw [List.countP_filter]
    refine List.countP_congr fun d hd => ?_
    rw [Bool.and_eq_true, and_iff_left_iff_imp]
    intro hcleared
    exact h.side hd (not_isTombstone_of_contains hcleared)
      (he.values _ (List.contains_iff_mem.1 hcleared))

/-- The client's part of a list after slots were cleared. -/
theorem filter_cleared (K : Int32 → Bool) (targets : List RowId) (L : List (Int32 × RowId)) :
    (L.map fun e => (e.1, e.2.cleared targets)).filter (fun e => K e.1)
      = (L.filter fun e => K e.1).map fun e => (e.1, e.2.cleared targets) := by
  rw [List.filter_map]
  rfl

/-- **An errand of the client does to its part of the entries** what it does to a list of them. -/
theorem after_filter {e : Errand} (he : e.OnSide K V true) :
    (e.after L).filter (fun d => K d.1) = e.after (L.filter fun d => K d.1) := by
  cases e with
  | insert key text =>
    rw [Errand.after, Errand.after]
    split
    · rename_i k hkey
      rw [entriesWith, entriesWith, List.filter_append,
        List.filter_cons_of_pos (by simpa using he.key k hkey),
        List.filter_filter, List.filter_filter, List.filter_filter, List.filter_filter]
      simp only [Bool.and_comm]
    · rfl
  | search key => rfl
  | contains text => rfl
  | deleteValues texts => exact filter_cleared K _ L

/-- **An errand of another client** leaves the client's part of the entries as it is. -/
theorem after_filter_of_other {e : Errand} (hsorted : (L.map (·.1)).Pairwise (· ≤ ·))
    (h : Parted K V L) (he : e.OnSide K V false) :
    (e.after L).filter (fun d => K d.1) = L.filter fun d => K d.1 := by
  cases e with
  | insert key text =>
    rw [Errand.after]
    split
    · rename_i k hkey
      rw [entriesWith, List.filter_append, List.filter_cons_of_neg (by simpa using he.key k hkey),
        ← List.filter_append, filter_le_append_filter_lt hsorted]
    · rfl
  | search key => rfl
  | contains text => rfl
  | deleteValues texts =>
    rw [Errand.after, filter_cleared]
    refine (List.map_congr_left fun d hd => ?_).trans (List.map_id _)
    obtain ⟨hmem, hown⟩ := List.mem_filter.1 hd
    -- a slot that is cleared would be one of another client
    have hkept : ¬ (PageFile.targetsOf texts).contains d.2 := fun hcleared => by
      have hside := h.side hmem (not_isTombstone_of_contains hcleared)
        (he.values _ (List.contains_iff_mem.1 hcleared))
      rw [hown] at hside
      cases hside
    rw [RowId.cleared, if_neg hkept]
    rfl

end Client

/-! ## (4) Handles that share an index -/

namespace Session

variable {ι κ : Type} {s t : Session} {handles own : ι → String} {f g : PageFile}

/-- **Handles that stand for one open file**, which they share. -/
def Shares (s : Session) (handles : ι → String) (f : PageFile) : Prop :=
  ∃ target name, ∀ i, s.resolve? (handles i) = some (⟨.shared, target⟩, ⟨f, name⟩)

/-- **Handles that share a new index.** -/
def SharesNew (s : Session) (handles : ι → String) : Prop :=
  ∃ host path sizing f, PageFile.create host path sizing = .ok f ∧ s.Shares handles f

theorem resolve?_eq_some_iff {handle : String} {h : Handle} {o : OpenFile} :
    s.resolve? handle = some (h, o) ↔
      s.handles.find? handle = some h ∧ s.openFiles.find? h.target = some o := by
  rw [resolve?]
  cases hhandle : s.handles.find? handle with
  | none => simp
  | some h' =>
    cases hfile : s.openFiles.find? h'.target with
    | none =>
      simp only [hfile, Option.bind_eq_bind, Option.bind_some, Option.bind_none]
      refine iff_of_false (by simp) ?_
      rintro ⟨hsame, hfound⟩
      obtain rfl := Option.some.inj hsame
      rw [hfile] at hfound
      cases hfound
    | some o' =>
      simp only [hfile, Option.bind_eq_bind, Option.bind_some]
      constructor
      · intro h
        cases h
        exact ⟨rfl, hfile⟩
      · rintro ⟨hsame, hfound⟩
        obtain rfl := Option.some.inj hsame
        obtain rfl := Option.some.inj (hfile.symm.trans hfound)
        rfl

/-- **What is asked through a handle goes to the file behind it**, and what it leaves is stored. -/
theorem run_ask {handle : String} {h : Handle} {o : OpenFile} {request : Request}
    (hresolve : s.resolve? handle = some (h, o)) (hallows : request.allows h.access) :
    s.run (.ask handle request)
      = ((request.perform h.access o.file).1.mapError Refusal.failed,
          s.store h.target { o with file := (request.perform h.access o.file).2 }) := by
  rw [run, Session.ask, hresolve]
  simp only [hallows, if_true]
  rcases request.perform h.access o.file with ⟨failure | answer, g⟩ <;> rfl

/-- All handles of an open file stand for what is stored. -/
theorem resolve?_store {handle : String} {h : Handle} {o : OpenFile}
    (hresolve : s.resolve? handle = some (h, o)) (o' : OpenFile) :
    (s.store h.target o').resolve? handle = some (h, o') := by
  refine resolve?_eq_some_iff.2 ⟨(resolve?_eq_some_iff.1 hresolve).1, ?_⟩
  rw [store, Table.find?_put, if_pos rfl]

/-- **An errand through one of the handles** goes to the file, and all handles share what it leaves. -/
theorem Shares.ask (h : s.Shares handles f) (i : ι) (e : Errand) :
    (s.run (.ask (handles i) e.request)).1
        = (e.request.perform .shared f).1.mapError Refusal.failed ∧
      (s.run (.ask (handles i) e.request)).2.Shares handles (e.request.perform .shared f).2 := by
  obtain ⟨target, name, hresolve⟩ := h
  rw [run_ask (hresolve i) e.allows_request]
  exact ⟨rfl, target, name, fun j => resolve?_store (hresolve j) _⟩

/-! ## (5) How handles come to share an index -/

/-- Letting go of a handle does not leave the system. -/
theorem host_dropHandle (s : Session) (handle : String) : (s.dropHandle handle).host = s.host := by
  rw [dropHandle]
  split
  · rfl
  · rw [Session.releaseUnheld]
    split
    · rfl
    · split <;> rfl

/-- A handle under which an index was created stands for the new file. -/
theorem resolve?_of_create {handle path : String} {sizing : Sizing} {a : Answer}
    (h : s.run (.openFile handle .index .create path sizing) = (.ok a, t)) :
    ∃ f, PageFile.create s.host path sizing = .ok f ∧
      ∃ target name, t.resolve? handle = some (⟨.index, target⟩, ⟨f, name⟩) := by
  rw [run, Session.openFile.eq_def] at h
  simp only [Directory.create] at h
  split at h
  · cases h
  rename_i opened hopened
  cases h
  refine ⟨opened.file, ?_, (s.dropHandle handle).opened, some opened.name, ?_⟩
  · -- the directory hands out the file that was created
    split at hopened
    · split at hopened
      · cases hopened
      · rw [host_dropHandle] at hopened
        rcases hfile : PageFile.create s.host path sizing with failure | file
        · rw [hfile] at hopened
          cases hopened
        · rw [hfile] at hopened
          cases hopened
          rfl
    all_goals cases hopened
  · refine resolve?_eq_some_iff.2 ⟨?_, ?_⟩
    · rw [Table.find?_put, if_pos rfl]
    · rw [Table.find?_put, if_pos rfl]

/-- The handle of an index shares it once it is asked to. -/
theorem shares_of_share {handle : String} {target : Nat} {name : Option String}
    (h : s.resolve? handle = some (⟨.index, target⟩, ⟨f, name⟩)) :
    (s.run (.onHandle handle .share)).2.Shares (fun _ : ι => handle) f := by
  rw [run, onHandle, h]
  refine ⟨target, name, fun _ => resolve?_eq_some_iff.2 ⟨?_, (resolve?_eq_some_iff.1 h).2⟩⟩
  rw [Table.find?_put, if_pos rfl]

/-- **An index that was created is shared as a new one.** -/
theorem sharesNew_of_create {handle path : String} {sizing : Sizing} {a : Answer}
    (h : s.run (.openFile handle .index .create path sizing) = (.ok a, t)) :
    (t.run (.onHandle handle .share)).2.SharesNew fun _ : ι => handle := by
  obtain ⟨f, hcreate, target, name, hresolve⟩ := resolve?_of_create h
  exact ⟨s.host, path, sizing, f, hcreate, shares_of_share hresolve⟩

/-- A handle holds what it stands for. -/
theorem isHeld_of_find? {handle : String} {h : Handle} (hfind : s.handles.find? handle = some h) :
    s.isHeld h.target := by
  rw [isHeld]
  generalize s.handles = table at hfind
  induction table with
  | nil => cases hfind
  | cons entry rest ih =>
    rw [Table.find?_cons] at hfind
    rw [List.any_cons, Bool.or_eq_true]
    split at hfind
    · obtain rfl := Option.some.inj hfind
      exact Or.inl (beq_self_eq_true _)
    · exact Or.inr (ih hfind)

/-- What no handle stands for is none of what handles share. -/
theorem Shares.releaseUnheld (h : s.Shares handles f) (n : Nat) :
    (s.releaseUnheld n).Shares handles f := by
  rw [Session.releaseUnheld]
  split
  · exact h
  · rename_i hfree
    split
    · exact h
    · obtain ⟨target, name, hresolve⟩ := h
      refine ⟨target, name, fun i => ?_⟩
      obtain ⟨hhandle, hfile⟩ := resolve?_eq_some_iff.1 (hresolve i)
      have hne : n ≠ target := by
        rintro rfl
        exact hfree (isHeld_of_find? hhandle)
      refine resolve?_eq_some_iff.2 ⟨hhandle, ?_⟩
      rw [Table.find?_erase, if_neg hne, store, Table.find?_put, if_neg hne]
      exact hfile

/-- **A clone shares the index too**, whatever its name stood for before. -/
theorem Shares.clone (h : s.Shares handles f) (i : ι) {copy : String} {names : κ → String}
    (hnames : ∀ k, names k = copy ∨ ∃ j, names k = handles j) :
    (s.run (.onHandle (handles i) (.clone copy))).2.Shares names f := by
  obtain ⟨target, name, hresolve⟩ := h
  have hcopied : Shares { s with handles := s.handles.put copy ⟨.shared, target⟩ } names f := by
    refine ⟨target, name, fun k => resolve?_eq_some_iff.2 ⟨?_, ?_⟩⟩
    · rw [Table.find?_put]
      split
      · rfl
      · rename_i hne
        obtain ⟨j, hj⟩ := (hnames k).resolve_left (Ne.symm hne)
        rw [hj]
        exact (resolve?_eq_some_iff.1 (hresolve j)).1
    · exact (resolve?_eq_some_iff.1 (hresolve i)).2
  rw [run, onHandle, hresolve i]
  simp only
  split
  · exact hcopied
  · exact hcopied.releaseUnheld _

/-- **Any number of clones share a new index** with the handles that there are. -/
theorem SharesNew.clones {names : κ → String} {copies : List String} (h : s.SharesNew handles)
    (i : ι) (hnames : ∀ k, names k ∈ copies ∨ ∃ j, names k = handles j) :
    (copies.foldl (fun s copy => (s.run (.onHandle (handles i) (.clone copy))).2) s).SharesNew
      names := by
  obtain ⟨host, path, sizing, f, hcreate, hshares⟩ := h
  refine ⟨host, path, sizing, f, hcreate, ?_⟩
  clear hcreate
  induction copies generalizing s ι handles with
  | nil =>
    obtain ⟨target, name, hresolve⟩ := hshares
    refine ⟨target, name, fun k => ?_⟩
    obtain ⟨j, hj⟩ := (hnames k).resolve_left List.not_mem_nil
    rw [hj]
    exact hresolve j
  | cons copy copies ih =>
    -- the new clone is one handle more
    let handles' : Option ι → String := fun j => j.elim copy handles
    have hcloned : (s.run (.onHandle (handles i) (.clone copy))).2.Shares handles' f := by
      refine hshares.clone i fun j => ?_
      cases j with
      | none => exact Or.inl rfl
      | some j => exact Or.inr ⟨j, rfl⟩
    have hnames' : ∀ k, names k ∈ copies ∨ ∃ j, names k = handles' j := by
      intro k
      rcases hnames k with hk | ⟨j, hj⟩
      · exact (List.mem_cons.1 hk).elim (fun hcopy => Or.inr ⟨none, hcopy⟩) Or.inl
      · exact Or.inr ⟨some j, hj⟩
    exact ih (some i) hnames' hcloned

/-! ## (6) Taking turns -/

/-- **The replies to errands**, each with its client, in the order in which the clients take turns. -/
def replies (s : Session) (handles : ι → String) :
    List (ι × Errand) → List (ι × Except Refusal Answer)
  | [] => []
  | (i, e) :: rest =>
    (i, (s.run (.ask (handles i) e.request)).1) ::
      (s.run (.ask (handles i) e.request)).2.replies handles rest

/-- **No reply reports a failed growth.** -/
def Grows (replies : List (ι × Except Refusal Answer)) : Prop :=
  ∀ r ∈ replies, ∀ failure, r.2 = .error (.failed failure) → ¬ failure.OfGrowth

theorem Grows.tail {r : ι × Except Refusal Answer} {rest : List (ι × Except Refusal Answer)}
    (h : Grows (r :: rest)) : Grows rest :=
  fun r' hr' => h r' (List.mem_cons_of_mem _ hr')

/-- **One turn**, unless a growth fails: the reply is that of the list of entries. -/
theorem Shares.turn {L : List (Int32 × RowId)} (h : s.Shares handles f)
    (htended : PageFile.Tended PageFile.Bare f L) (i : ι) (e : Errand)
    (hgrows : ∀ failure, (s.run (.ask (handles i) e.request)).1 = .error (.failed failure) →
      ¬ failure.OfGrowth) :
    (s.run (.ask (handles i) e.request)).1 = .ok (e.answer L) ∧
      ∃ g, (s.run (.ask (handles i) e.request)).2.Shares handles g ∧
        PageFile.Tended PageFile.Bare g (e.after L) := by
  obtain ⟨hreply, hshares⟩ := h.ask i e
  rcases htended.serve e with ⟨g, hrun, htended'⟩ | ⟨-, failure, g, hrun, hgrowth⟩
  · rw [hrun] at hreply hshares
    exact ⟨hreply, g, hshares, htended'⟩
  · rw [hrun] at hreply
    exact absurd hgrowth (hgrows failure hreply)

/-- **Only insertions need room.** -/
theorem grows_of_no_insert {L : List (Int32 × RowId)} {turns : List (ι × Errand)}
    (h : s.Shares handles f) (htended : PageFile.Tended PageFile.Bare f L)
    (hnone : ∀ turn ∈ turns, ¬ turn.2.isInsert) : Grows (s.replies handles turns) := by
  induction turns generalizing s f L with
  | nil => exact fun r hr => nomatch hr
  | cons turn turns ih =>
    obtain ⟨i, e⟩ := turn
    obtain ⟨hreply, hshares⟩ := h.ask i e
    rcases htended.serve e with ⟨g, hrun, htended'⟩ | ⟨hinsert, -⟩
    · rw [hrun] at hreply hshares
      refine List.forall_mem_cons.2 ⟨fun failure hfailed => ?_,
        ih hshares htended' fun turn hturn => hnone turn (List.mem_cons_of_mem _ hturn)⟩
      rw [hreply] at hfailed
      cases hfailed
    · exact absurd hinsert (hnone _ List.mem_cons_self)

/-- **What a client is told in turn with others and alone**, from lists of which the one is the
client's part of the other. -/
theorem replies_filter [DecidableEq ι] {K : Int32 → Bool} {V : RowId → Bool} (i : ι)
    {L : List (Int32 × RowId)} {turns : List (ι × Errand)} (hs : s.Shares handles f)
    (hf : PageFile.Tended PageFile.Bare f L) (ht : t.Shares own g)
    (hg : PageFile.Tended PageFile.Bare g (L.filter fun e => K e.1)) (hparted : Parted K V L)
    (hsides : ∀ turn ∈ turns, turn.2.OnSide K V (decide (turn.1 = i)))
    (hgrows : Grows (s.replies handles turns))
    (hgrows' : Grows (t.replies own (turns.filter (·.1 = i)))) :
    (s.replies handles turns).filter (·.1 = i) = t.replies own (turns.filter (·.1 = i)) := by
  induction turns generalizing s t f g L with
  | nil => rfl
  | cons turn turns ih =>
    obtain ⟨j, e⟩ := turn
    have hside := hsides _ List.mem_cons_self
    have hlater : ∀ turn ∈ turns, turn.2.OnSide K V (decide (turn.1 = i)) :=
      fun turn hturn => hsides turn (List.mem_cons_of_mem _ hturn)
    rw [replies] at hgrows ⊢
    obtain ⟨hreply, f', hs', hf'⟩ := hs.turn hf j e (hgrows _ List.mem_cons_self)
    by_cases hj : j = i
    · -- the client's own turn, in both sessions
      subst hj
      rw [decide_eq_true rfl] at hside
      rw [List.filter_cons_of_pos (by simp)] at hgrows' ⊢
      rw [List.filter_cons_of_pos (by simp)]
      rw [replies] at hgrows' ⊢
      obtain ⟨hreply', g', ht', hg'⟩ := ht.turn hg j e (hgrows' _ List.mem_cons_self)
      rw [answer_filter hparted hside] at hreply'
      rw [← after_filter hside] at hg'
      rw [hreply, hreply', ih hs' hf' ht' hg' (hparted.after hside) hlater hgrows.tail hgrows'.tail]
    · rw [decide_eq_false hj] at hside
      rw [List.filter_cons_of_neg (by simpa using hj)] at hgrows' ⊢
      rw [List.filter_cons_of_neg (by simpa using hj)]
      rw [← after_filter_of_other hf.lists.sorted hparted hside] at hg
      exact ih hs' hf' ht hg (hparted.after hside) hlater hgrows.tail hgrows'

/-! ## (7) Clients with their own data -/

/-- **The clients have their keys and their row identifiers to themselves.** -/
structure Apart (turns : List (ι × Errand)) : Prop where
  /-- No key is named by two clients. -/
  keys : ∀ a ∈ turns, ∀ b ∈ turns, a.1 ≠ b.1 → ∀ k, a.2.key? = some k → b.2.key? ≠ some k
  /-- No row identifier is. -/
  values : ∀ a ∈ turns, ∀ b ∈ turns, a.1 ≠ b.1 → ∀ v ∈ a.2.values, v ∉ b.2.values

section Names

variable [DecidableEq ι]

/-- Whether a client names a key. -/
def namesKey (turns : List (ι × Errand)) (i : ι) (k : Int32) : Bool :=
  turns.any fun turn => turn.1 = i && turn.2.key? = some k

/-- Whether a client names a row identifier. -/
def namesValue (turns : List (ι × Errand)) (i : ι) (v : RowId) : Bool :=
  turns.any fun turn => turn.1 = i && turn.2.values.contains v

/-- **Every errand is on the side of its client.** -/
theorem Apart.onSide {turns : List (ι × Errand)} (h : Apart turns) (i : ι) :
    ∀ turn ∈ turns,
      turn.2.OnSide (namesKey turns i) (namesValue turns i) (decide (turn.1 = i)) := by
  intro turn hturn
  constructor
  · intro k hkey
    rw [Bool.eq_iff_iff, namesKey, List.any_eq_true, decide_eq_true_iff]
    constructor
    · rintro ⟨other, hother, hnames⟩
      obtain ⟨hi, hk⟩ := Bool.and_eq_true_iff.1 hnames
      by_contra hne
      refine h.keys turn hturn other hother ?_ k hkey (of_decide_eq_true hk)
      rwa [of_decide_eq_true hi]
    · exact fun hi => ⟨turn, hturn, by simp [hi, hkey]⟩
  · intro v hv
    rw [Bool.eq_iff_iff, namesValue, List.any_eq_true, decide_eq_true_iff]
    constructor
    · rintro ⟨other, hother, hnames⟩
      obtain ⟨hi, hmem⟩ := Bool.and_eq_true_iff.1 hnames
      by_contra hne
      refine h.values turn hturn other hother ?_ v hv (List.contains_iff_mem.1 hmem)
      rwa [of_decide_eq_true hi]
    · exact fun hi => ⟨turn, hturn, by simp [hi, hv]⟩

end Names

/-- **Clients with disjoint data do not disturb each other.** Handles share a new index, and clients
take turns on them in any order, each with errands of its own. If no two of them name the same key or
the same row identifier as it is stored, and no growth of a file fails, then each is told in order what
it would be told if it ran its errands alone on a new index. -/
theorem clients_answered_as_alone [DecidableEq ι] {turns : List (ι × Errand)} {i : ι}
    (hshared : s.SharesNew handles) (halone : t.SharesNew own) (hapart : Apart turns)
    (hgrows : Grows (s.replies handles turns))
    (hgrows' : Grows (t.replies own (turns.filter (·.1 = i)))) :
    (s.replies handles turns).filter (·.1 = i) = t.replies own (turns.filter (·.1 = i)) := by
  obtain ⟨_, _, _, f, hf, hs⟩ := hshared
  obtain ⟨_, _, _, g, hg, ht⟩ := halone
  exact replies_filter (L := []) i hs (.create hf) ht (.create hg) (fun e he => nomatch he)
    (hapart.onSide i) hgrows hgrows'

/-- A session in which an index was created. -/
def oneClient : Session :=
  ⟨default, Directory.empty.put "new" PageFile.newFile.image, [("a", ⟨.index, 0⟩)],
    [(0, ⟨PageFile.newFile, some "new"⟩)], 1⟩

theorem run_create_oneClient :
    (start default).run (.openFile "a" .index .create "new" .default)
      = (.ok (.info PageFile.newFile.info), oneClient) := by
  have hplace : (start default).directory.place "new" = .entry "new" := rfl
  have hcreate : (start default).directory.create (start default).host "new" .default
      = .ok ⟨PageFile.newFile, "new", Directory.empty.put "new" PageFile.newFile.image⟩ := by
    rw [Directory.create, hplace]
    simp only
    rw [if_neg (by decide), start, PageFile.create_newFile]
    rfl
  have hfree : (start default).dropHandle "a" = start default := rfl
  rw [run, Session.openFile]
  simp only [hfree, hcreate]
  rfl

/-- A session in which two handles share a new index. -/
def twoClients : Session :=
  ["b"].foldl (fun s copy => (s.run (.onHandle "a" (.clone copy))).2)
    (oneClient.run (.onHandle "a" .share)).2

/-- The handle of each of two clients. -/
def twoHandles : Bool → String
  | true => "a"
  | false => "b"

/-- Errands of two clients in turn. -/
def twoTurns : List (Bool × Errand) :=
  [(true, .insert "1" "one"), (false, .search "2"), (true, .search "1"),
    (false, .deleteValues ["two"]), (true, .contains "one")]

theorem sharesNew_twoClients : twoClients.SharesNew twoHandles := by
  have hnew : (oneClient.run (.onHandle "a" .share)).2.SharesNew fun _ : Unit => "a" :=
    sharesNew_of_create run_create_oneClient
  refine hnew.clones () fun k => ?_
  cases k with
  | true => exact Or.inr ⟨(), rfl⟩
  | false => exact Or.inl List.mem_cons_self

theorem apart_twoTurns : Apart twoTurns := by
  have hkeys : keyOf? "1" = some 1 ∧ keyOf? "2" = some 2 := ⟨rfl, rfl⟩
  have htexts : RowId.ofText "one" ≠ RowId.ofText "two" := fun hsame => by
    have htext := congrArg RowId.text hsame
    rw [RowId.text_ofText, RowId.text_ofText] at htext
    exact absurd htext (by decide)
  constructor
  · simp [twoTurns, Errand.key?, hkeys]
  · simp [twoTurns, Errand.values, Errand.texts, PageFile.targetsOf, htexts, htexts.symm]

/-- The first insertion finds room, and errands that insert nothing need none. -/
theorem grows_twoClients {rest : List (Bool × Errand)} (hnone : ∀ turn ∈ rest, ¬ turn.2.isInsert) :
    Grows (twoClients.replies twoHandles ((true, .insert "1" "one") :: rest)) := by
  obtain ⟨_, _, _, f, hcreate, hshares⟩ := sharesNew_twoClients
  have hreply : (twoClients.run (.ask (twoHandles true) (.insertText "1" "one"))).1 = .ok .done :=
    rfl
  have hgrows : ∀ failure, (twoClients.run (.ask (twoHandles true) (.insertText "1" "one"))).1
      = .error (.failed failure) → ¬ failure.OfGrowth := fun failure hfailed => by
    rw [hreply] at hfailed
    cases hfailed
  obtain ⟨-, g, hshares', htended⟩ :=
    hshares.turn (.create hcreate) true (.insert "1" "one") hgrows
  exact List.forall_mem_cons.2 ⟨hgrows, grows_of_no_insert hshares' htended hnone⟩

theorem clients_answered_as_alone_twoClients :
    Apart twoTurns ∧
      (twoClients.replies twoHandles twoTurns).filter (·.1 = true)
        = twoClients.replies twoHandles (twoTurns.filter (·.1 = true)) :=
  ⟨apart_twoTurns, clients_answered_as_alone sharesNew_twoClients sharesNew_twoClients
    apart_twoTurns (grows_twoClients (by decide)) (grows_twoClients (by decide))⟩

end Session

end RowIndex
