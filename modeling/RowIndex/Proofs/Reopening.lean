import RowIndex.Proofs.Calls
import RowIndex.Session.Request

/-! # Opening a file again goes unseen

At every moment, the content of an open file is all that there is to it: opened again, it is the same
file, and goes on as if it had never been let go of.

* **`PageFile.Stamped`** — page 0 starts with the record in force, so that storing it changes nothing.
* **`PageFile.Stuck`** — the file has a length that cannot be mapped, and keeps it.
* **`PageFile.Settled`** — what is true of a file from its creation on; `Settled.openImage_leftBehind`
  says that it is opened again as it is.
* **`PageFile.Alike`** — two files that differ in what waits for a flush at most.
* **`reopening_unseen`** — runs with and without reopenings have the same answers and the same end. -/

namespace RowIndex

open RowIndex.Action

/-! ## (1) The record in page 0 -/

/-- A patch that was written is written already. -/
theorem Page.overwrite_overwrite (p : Page) {i : Nat} {patch : ByteArray}
    (h : i + patch.size ≤ Layout.pageSize) :
    (p.overwrite i patch).overwrite i patch = p.overwrite i patch := by
  apply Page.ext_bytes
  apply Bytes.ext_byteAt (by rw [Page.size_bytes, Page.size_bytes])
  intro j _
  rw [Page.byteAt_overwrite _ h, Page.byteAt_overwrite _ h]
  split <;> rfl

namespace FileImage

/-- A page that is written as it is changes nothing. -/
theorem setPage_of_getElem? {image : FileImage} {k : Nat} {page : Page}
    (h : image.blocks[k]? = some page) : image.setPage k page = image := by
  have hblocks : image.blocks.insert k page = image.blocks := by
    apply Std.ExtTreeMap.ext_getElem?
    intro j
    rw [Std.ExtTreeMap.getElem?_insert]
    split
    · rename_i hj
      rw [← h, Nat.compare_eq_eq.1 hj]
    · rfl
  rw [setPage, hblocks]

/-- A page that is in a file is not touched when another is written. -/
theorem getElem?_setPage_of_ne (image : FileImage) {k j : Nat} (page : Page) (h : k ≠ j) :
    (image.setPage k page).blocks[j]? = image.blocks[j]? := by
  rw [setPage, Std.ExtTreeMap.getElem?_insert, if_neg]
  rwa [Nat.compare_eq_eq]

/-- Two files with the same block at a place have so when one page is written to both. -/
theorem getElem?_setPage_congr {image image' : FileImage} {j : Nat}
    (h : image'.blocks[j]? = image.blocks[j]?) (k : Nat) (page : Page) :
    (image'.setPage k page).blocks[j]? = (image.setPage k page).blocks[j]? := by
  rw [setPage, setPage, Std.ExtTreeMap.getElem?_insert, Std.ExtTreeMap.getElem?_insert, h]

/-- Two files of one length with the same blocks from a place on have so when they are cut or extended
behind it. -/
theorem getElem?_resize_congr {image image' : FileImage} (hlength : image'.length = image.length)
    {n k : Nat} (h : ∀ i, k ≤ i → image'.blocks[i]? = image.blocks[i]?) (hk : k ≤ n / Layout.pageSize)
    {i : Nat} (hi : k ≤ i) : (image'.resize n).blocks[i]? = (image.resize n).blocks[i]? := by
  rw [resize, resize, hlength]
  split
  · exact h i hi
  · -- the page that is cut is the same too
    have hlast : image'.page (n / Layout.pageSize) = image.page (n / Layout.pageSize) := by
      rw [page, page, Std.ExtTreeMap.getD_eq_getD_getElem?, Std.ExtTreeMap.getD_eq_getD_getElem?,
        h _ hk]
    simp only [hlast]
    split
    · rw [Std.ExtTreeMap.getElem?_filter', Std.ExtTreeMap.getElem?_filter', h i hi]
    · rw [Std.ExtTreeMap.getElem?_insert, Std.ExtTreeMap.getElem?_insert,
        Std.ExtTreeMap.getElem?_filter', Std.ExtTreeMap.getElem?_filter', h i hi]

/-- The first page stays where it is when the file is cut or extended behind it. -/
theorem getElem?_resize_zero (image : FileImage) {n : Nat} (h : Layout.pageSize ≤ n) :
    (image.resize n).blocks[0]? = image.blocks[0]? := by
  have hkept : (image.blocks.filter fun k _ => decide (k * Layout.pageSize < n))[0]?
      = image.blocks[0]? := by
    have hstart : 0 * Layout.pageSize < n := Nat.lt_of_lt_of_le (by decide) h
    rw [Std.ExtTreeMap.getElem?_filter']
    cases image.blocks[0]? with
    | none => rfl
    | some page => simp only [Option.filter_some, decide_eq_true hstart, if_true]
  unfold resize
  split
  · rfl
  · simp only
    split
    · exact hkept
    · -- the page that is cut lies behind the first
      have hlast : n / Layout.pageSize ≠ 0 := Nat.ne_of_gt (Nat.div_pos h (by decide))
      rw [Std.ExtTreeMap.getElem?_insert, if_neg (by rwa [Nat.compare_eq_eq]), hkept]

end FileImage

namespace PageFile

variable {f g : PageFile}

/-- **Page 0 was written and starts with the record in force.** -/
def Stamped (f : PageFile) : Prop :=
  ∃ page, f.image.blocks[0]? = some page ∧ page.overwrite 0 f.record.image = page

theorem stamped_storeRecord (f : PageFile) : f.storeRecord.Stamped := by
  refine ⟨(f.image.page 0).overwrite 0 f.record.image, ?_, ?_⟩
  · rw [storeRecord, FileImage.setPage, Std.ExtTreeMap.getElem?_insert_self]
  · refine Page.overwrite_overwrite _ ?_
    rw [Metadata.size_image]
    decide

theorem stamped_flushed (f : PageFile) : f.flushed.Stamped :=
  stamped_storeRecord f

theorem length_image_storeRecord (f : PageFile) : f.storeRecord.image.length = f.image.length := rfl

namespace Stamped

/-- **Storing the record again changes nothing.** -/
theorem image_storeRecord (h : f.Stamped) : f.storeRecord.image = f.image := by
  obtain ⟨page, hpage, hrecord⟩ := h
  have hzero : f.image.page 0 = page := by
    rw [FileImage.page, Std.ExtTreeMap.getD_eq_getD_getElem?, hpage, Option.getD_some]
  rw [storeRecord, hzero, hrecord]
  exact FileImage.setPage_of_getElem? hpage

/-- **A file is left behind as it is**, saved or not. -/
theorem image_leftBehind (h : f.Stamped) (saved : Bool) : (f.leftBehind saved).image = f.image := by
  rw [leftBehind, released]
  split
  · exact h.image_storeRecord
  · split
    · exact h.image_storeRecord
    · rfl

theorem withNode (h : f.Stamped) {node : Node} (ha : f.record.isAllocated node.id) :
    (f.withNode node).Stamped := by
  obtain ⟨page, hpage, hrecord⟩ := h
  have hplace := (Metadata.index_of_isAllocated ha).1
  exact ⟨page, (f.image.getElem?_setPage_of_ne _ (by omega)).trans hpage, hrecord⟩

theorem withRoom (h : f.Stamped) : f.withRoom.2.Stamped := by
  obtain ⟨page, hpage, hrecord⟩ := h
  have hlength : Layout.pageSize ≤ f.grownLength := by
    simp only [grownLength, neededLength, Layout.pageSize]
    omega
  have hresized := (f.image.getElem?_resize_zero hlength).trans hpage
  refine ⟨page, ?_, by rwa [record_withRoom]⟩
  unfold PageFile.withRoom
  split
  · exact hpage
  · split
    · exact hpage
    · split
      · split <;> exact hresized
      · exact hpage

theorem withClearedPage (h : f.Stamped) (hf : f.InUse) : f.withClearedPage.Stamped := by
  obtain ⟨page, hpage, hrecord⟩ := h
  have hone := hf.one_le_pageCount
  rw [pageCount, Metadata.pageCount] at hone
  have hplace : f.nextPage.index ≠ 0 := by
    rw [nextPage, PageId.index]
    simp only
    omega
  exact ⟨page, (f.image.getElem?_setPage_of_ne _ hplace).trans hpage, hrecord⟩

end Stamped

/-! ## (2) Settled files -/

/-- **A file of a length that cannot be mapped**, because it had to grow to that length. It would grow
to the same length again. -/
structure Stuck (f : PageFile) : Prop where
  /-- The length cannot be mapped. -/
  long : ¬ f.host.maps f.image.length
  /-- There is no room for another page. -/
  full : f.capacity < f.neededLength
  /-- Growing comes to the length that there is. -/
  grown : f.grownLength = f.image.length

/-- **What is true of a file from its creation on.** -/
structure Settled (f : PageFile) : Prop where
  /-- It is in use. -/
  inUse : f.InUse
  /-- Page 0 starts with the record in force. -/
  stamped : f.Stamped
  /-- All of it is mapped, unless it is stuck. -/
  mapped : f.capacity = f.image.length ∧ f.host.maps f.image.length ∨ f.Stuck

/-- A stuck file has no room for another page, and is not changed by asking for it. -/
theorem Stuck.withRoom (h : f.Stuck) : ∃ failure, f.withRoom = (.error failure, f) := by
  have hsame : f.image.resize f.grownLength = f.image := by
    rw [h.grown, FileImage.resize, if_pos (Nat.le_refl _)]
  unfold PageFile.withRoom
  rw [if_neg (Nat.not_le.2 h.full), hsame, h.grown]
  split
  · exact ⟨_, rfl⟩
  · split
    · rw [if_neg h.long]
      exact ⟨_, rfl⟩
    · exact ⟨_, rfl⟩

theorem keeps_allocate_stuck : Keeps Stuck allocate := by
  intro f h
  obtain ⟨failure, hroom⟩ := h.withRoom
  rw [runOn_allocate, hroom]
  exact h

theorem keeps_writePage_stuck (node : Node) : Keeps Stuck (writePage node) := by
  intro f h
  rw [runOn_writePage]
  split
  · split
    · exact h
    · exact ⟨h.long, h.full, h.grown⟩
  · exact h

theorem keeps_setRoot_stuck (root : PageId) : Keeps Stuck (setRoot root) := by
  intro f h
  rw [runOn_setRoot]
  split
  · exact ⟨h.long, h.full, h.grown⟩
  · exact h

theorem keeps_flush_stuck : Keeps Stuck flush := by
  intro f h
  rw [runOn_flush]
  split <;> exact ⟨h.long, h.full, h.grown⟩

/-- **A stuck file stays stuck.** -/
theorem simulation_stuck : Simulation fun f g => f = g ∧ f.Stuck :=
  simulation_of_keeps keeps_allocate_stuck keeps_writePage_stuck keeps_setRoot_stuck
    keeps_flush_stuck

/-- A new file is settled. -/
theorem settled_create {host : Host} {path : String} {sizing : Sizing}
    (h : create host path sizing = .ok f) : f.Settled := by
  have hinUse := inUse_create h
  obtain ⟨hlength, rfl⟩ := create_eq_ok_iff.1 h
  refine ⟨hinUse, stamped_flushed _, Or.inl ?_⟩
  rw [image_flushed, length_image_storeRecord, FileImage.length_resize]
  exact ⟨rfl, (Host.makes_iff.1 hlength).2.1⟩

namespace Settled

/-- **A settled file that got room for another page** is all mapped. -/
theorem withRoom (h : f.Settled) (hroom : f.withRoom = (.ok (), g)) :
    g.InUse ∧ g.Stamped ∧ g.capacity = g.image.length ∧ g.host.maps g.image.length := by
  have hinUse := h.inUse.withRoom
  have hstamped := h.stamped.withRoom
  rw [hroom] at hinUse hstamped
  refine ⟨hinUse, hstamped, ?_⟩
  rcases h.mapped with hmapped | hstuck
  · unfold PageFile.withRoom at hroom
    split at hroom
    · cases hroom
      exact hmapped
    · split at hroom
      · cases hroom
      · split at hroom
        · split at hroom
          · rename_i hmaps
            cases hroom
            rw [FileImage.length_resize]
            exact ⟨rfl, hmaps⟩
          · cases hroom
        · cases hroom
  · obtain ⟨failure, hstays⟩ := hstuck.withRoom
    rw [hstays] at hroom
    cases hroom

/-- **A settled file that got no room for another page** is as it was, or stuck. -/
theorem withRoom_error {failure : Failure} (h : f.Settled)
    (hroom : f.withRoom = (.error failure, g)) : g.Settled := by
  have hinUse := h.inUse.withRoom
  have hstamped := h.stamped.withRoom
  rw [hroom] at hinUse hstamped
  refine ⟨hinUse, hstamped, ?_⟩
  unfold PageFile.withRoom at hroom
  split at hroom
  · cases hroom
  · rename_i hneeded
    split at hroom
    · cases hroom
      exact h.mapped
    · split at hroom
      · split at hroom
        · cases hroom
        · rename_i hmaps
          cases hroom
          have hlong := FileImage.length_resize f.image f.grownLength
          exact Or.inr ⟨by rwa [hlong], Nat.lt_of_not_le hneeded, hlong.symm⟩
      · cases hroom
        exact h.mapped

end Settled

theorem keeps_allocate_settled : Keeps Settled allocate := by
  intro f h
  have hinUse := keeps_allocate f h.inUse
  rw [runOn_allocate] at hinUse ⊢
  rcases hroom : f.withRoom with ⟨failure | ok, g⟩
  · exact h.withRoom_error hroom
  · obtain ⟨hg, hstamped, hmapped⟩ := h.withRoom hroom
    rw [hroom] at hinUse
    simp only at hinUse ⊢
    split
    · exact ⟨hg.withClearedPage, hstamped.withClearedPage hg, Or.inl hmapped⟩
    · rename_i hfits
      rw [if_neg hfits] at hinUse
      exact ⟨hinUse, stamped_storeRecord _, Or.inl hmapped⟩

theorem keeps_writePage_settled (node : Node) : Keeps Settled (writePage node) := by
  intro f h
  have hinUse := keeps_writePage node f h.inUse
  rw [runOn_writePage] at hinUse ⊢
  split
  · rename_i ha
    rw [if_pos ha] at hinUse
    split
    · exact h
    · rename_i hcheck
      rw [hcheck] at hinUse
      exact ⟨hinUse, h.stamped.withNode ha, h.mapped.imp id fun hs => ⟨hs.long, hs.full, hs.grown⟩⟩
  · exact h

theorem keeps_setRoot_settled (root : PageId) : Keeps Settled (setRoot root) := by
  intro f h
  have hinUse := keeps_setRoot root f h.inUse
  rw [runOn_setRoot] at hinUse ⊢
  split
  · rename_i hroot
    rw [if_pos hroot] at hinUse
    exact ⟨hinUse, stamped_storeRecord _, h.mapped.imp id fun hs => ⟨hs.long, hs.full, hs.grown⟩⟩
  · exact h

theorem Settled.flushed (h : f.Settled) : f.flushed.Settled where
  inUse := h.inUse.flushed
  stamped := stamped_flushed f
  mapped := h.mapped.imp id fun hs => ⟨hs.long, hs.full, hs.grown⟩

theorem keeps_flush_settled : Keeps Settled flush := by
  intro f h
  rw [runOn_flush]
  split
  · exact h.flushed
  · exact ⟨h.inUse.storeRecord, stamped_storeRecord f,
      h.mapped.imp id fun hs => ⟨hs.long, hs.full, hs.grown⟩⟩

/-- **A settled file stays settled.** -/
theorem simulation_settled : Simulation fun f g => f = g ∧ f.Settled :=
  simulation_of_keeps keeps_allocate_settled keeps_writePage_settled keeps_setRoot_settled
    keeps_flush_settled

/-- What is left of a settled file is settled. -/
theorem Settled.leftBehind (h : f.Settled) (saved : Bool) : (f.leftBehind saved).Settled := by
  rw [PageFile.leftBehind, released]
  split
  · exact h.flushed
  · split
    · exact h.flushed
    · exact h

/-- **A settled file that can be mapped is opened again as it is**, whether it is saved before or not. -/
theorem Settled.openImage_leftBehind (h : f.Settled) (hlength : f.host.maps f.image.length)
    (path : String) (saved : Bool) (sizing : Sizing) :
    openImage f.host path (f.leftBehind saved).image sizing =
      .ok { f with path := path, sizing := sizing, dirty := false } := by
  have hcapacity : f.capacity = f.image.length := by
    rcases h.mapped with hmapped | hstuck
    · exact hmapped.1
    · exact absurd hlength hstuck.long
  rw [h.stamped.image_leftBehind, openImage_image h.inUse hlength, ← hcapacity]

/-- **A settled file is opened again as a settled file.** -/
theorem Settled.reopened (h : f.Settled) (hlength : f.host.maps f.image.length)
    (path : String) (sizing : Sizing) :
    { f with path := path, sizing := sizing, dirty := false }.Settled where
  inUse := ⟨h.inUse.sound, h.inUse.stored, h.inUse.counted, h.inUse.mapped⟩
  stamped := h.stamped
  mapped := h.mapped.imp id fun hs => absurd hlength hs.long

/-! ## (3) Files that differ in what waits for a flush -/

/-- **Two files that differ in what waits for a flush at most.** -/
def Alike (f g : PageFile) : Prop :=
  ∃ dirty, g = { f with dirty := dirty }

theorem Alike.refl (f : PageFile) : Alike f f :=
  ⟨f.dirty, rfl⟩

/-- Room is made alike. -/
theorem withRoom_of_dirty (f : PageFile) (dirty : Bool) :
    { f with dirty := dirty }.withRoom = (f.withRoom.1, { f.withRoom.2 with dirty := dirty }) := by
  -- the lengths that are compared, and the system that is asked, are the same
  generalize hg : { f with dirty := dirty } = g
  have hneeded : g.neededLength = f.neededLength := by rw [← hg]; rfl
  have hcapacity : g.capacity = f.capacity := by rw [← hg]
  have hgrown : g.grownLength = f.grownLength := by rw [← hg]; rfl
  have hhost : g.host = f.host := by rw [← hg]
  rw [PageFile.withRoom, PageFile.withRoom, hneeded, hcapacity, hgrown, hhost, ← hg]
  split
  · rfl
  · split
    · rfl
    · split
      · split <;> rfl
      · rfl

/-- **What waits for a flush is not looked at.** -/
theorem simulation_alike : Simulation Alike where
  same := by
    rintro f _ ⟨dirty, rfl⟩
    exact ⟨rfl, fun _ => rfl⟩
  allocate := by
    rintro f _ ⟨dirty, rfl⟩
    rw [runOn_allocate, runOn_allocate, withRoom_of_dirty]
    rcases f.withRoom with ⟨failure | ok, g⟩
    · exact ⟨rfl, dirty, rfl⟩
    · simp only
      split
      · exact ⟨rfl, dirty, rfl⟩
      · exact ⟨rfl, true, rfl⟩
  writePage node := by
    rintro f _ ⟨dirty, rfl⟩
    rw [runOn_writePage, runOn_writePage]
    simp only
    split
    · cases node.check with
      | error e => exact ⟨rfl, dirty, rfl⟩
      | ok u => exact ⟨rfl, true, rfl⟩
    · exact ⟨rfl, dirty, rfl⟩
  setRoot root := by
    rintro f _ ⟨dirty, rfl⟩
    rw [runOn_setRoot, runOn_setRoot]
    simp only
    split
    · exact ⟨rfl, true, rfl⟩
    · exact ⟨rfl, dirty, rfl⟩
  flush := by
    rintro f _ ⟨dirty, rfl⟩
    rw [runOn_flush, runOn_flush]
    simp only
    split
    · exact ⟨rfl, false, rfl⟩
    · exact ⟨rfl, dirty, rfl⟩

end PageFile

/-! ## (4) Requests -/

/-- **An answer without what waits for a flush.** -/
def Answer.forgetDirty : Answer → Answer
  | .info i => .info { i with dirty := false }
  | answer => answer

namespace PageFile

variable {f g : PageFile} {R : PageFile → PageFile → Prop}

/-- A question that is answered the same. -/
theorem answered_alike {α : Type} (hfg : R f g) {result result' : Except Failure α}
    (hresult : result' = result) (answer : α → Answer) :
    (answered g result' answer).1.map Answer.forgetDirty
        = (answered f result answer).1.map Answer.forgetDirty ∧
      R (answered f result answer).2 (answered g result' answer).2 := by
  rw [hresult]
  exact ⟨rfl, hfg⟩

/-- An action that respects a way of being alike. -/
theorem acted_alike {α : Type} (hfg : R f g) {action : Action α} (haction : Respects R action)
    (answer : α → Answer) :
    (acted g action answer).1.map Answer.forgetDirty
        = (acted f action answer).1.map Answer.forgetDirty ∧
      R (acted f action answer).2 (acted g action answer).2 := by
  obtain ⟨hanswer, halike⟩ := haction f g hfg
  rw [acted, acted]
  simp only
  rw [hanswer]
  exact ⟨rfl, halike⟩

/-- A deletion of a single entry is passed over. -/
theorem respects_deleteText (key text : String) : Respects R (deleteText key text) := by
  rw [deleteText]
  split <;> exact respects_pure _

namespace Simulation

variable (h : Simulation R)

include h

theorem insertText (key text : String) : Respects R (insertText key text) := by
  rw [PageFile.insertText]
  split
  · exact h.insert _ _
  · exact respects_pure _

theorem allocateFrom (hcapacity : ∀ f g, R f g → g.capacity = f.capacity) (hfg : R f g) (count : Nat)
    (pages : List PageId) (growth : List (PageId × Nat)) :
    (allocateFrom count pages growth g).1 = (allocateFrom count pages growth f).1 ∧
      R (allocateFrom count pages growth f).2 (allocateFrom count pages growth g).2 := by
  induction count generalizing f g pages growth with
  | zero => exact ⟨rfl, hfg⟩
  | succ count ih =>
    obtain ⟨hanswer, halike⟩ := h.allocate f g hfg
    rw [PageFile.allocateFrom, PageFile.allocateFrom]
    rcases hf : PageFile.allocate.runOn f with ⟨answer, f'⟩
    rcases hg : PageFile.allocate.runOn g with ⟨answer', g'⟩
    rw [hf, hg] at hanswer halike
    obtain rfl : answer' = answer := hanswer
    cases answer' with
    | error failure => exact ⟨rfl, halike⟩
    | ok id =>
      simp only [hcapacity f g hfg, hcapacity f' g' halike]
      exact ih halike _ _

/-- **A request is answered alike on files that are alike**, and leaves such files behind. -/
theorem perform (halike : ∀ f g, R f g → Alike f g) (hfg : R f g) (request : Request)
    (access : Access) :
    (request.perform access g).1.map Answer.forgetDirty
        = (request.perform access f).1.map Answer.forgetDirty ∧
      R (request.perform access f).2 (request.perform access g).2 := by
  have hsame := h.same f g hfg
  have hcapacity : ∀ f g, R f g → g.capacity = f.capacity := fun f g hfg => by
    obtain ⟨dirty, rfl⟩ := halike f g hfg
    rfl
  cases request with
  | info =>
    obtain ⟨dirty, rfl⟩ := halike f g hfg
    exact ⟨rfl, hfg⟩
  | debug =>
    obtain ⟨dirty, rfl⟩ := halike f g hfg
    cases access <;> exact ⟨rfl, hfg⟩
  | treeOutline =>
    obtain ⟨dirty, rfl⟩ := halike f g hfg
    exact ⟨rfl, hfg⟩
  | save => exact acted_alike hfg h.flush _
  | insertText key text => exact acted_alike hfg (h.insertText key text) _
  | deleteText key text => exact acted_alike hfg (respects_deleteText key text) _
  | deleteValues texts => exact acted_alike hfg (h.deleteValues texts) _
  | insert key text => exact acted_alike hfg (h.insert key text) _
  | delete key text => exact acted_alike hfg (respects_pure _) _
  | writePage node => exact acted_alike hfg (h.writePage node) _
  | setRoot id => exact acted_alike hfg (h.setRoot id) _
  | allocate count =>
    obtain ⟨hreport, hafter⟩ := h.allocateFrom hcapacity hfg count [] []
    simp only [Request.perform, allocateMany]
    rw [hreport]
    exact ⟨rfl, hafter⟩
  | searchText key =>
    refine answered_alike hfg ?_ _
    rw [searchText, searchText]
    cases keyOf? key with
    | none => rfl
    | some key => exact hsame.search key
  | contains text => exact answered_alike hfg (hsame.contains text) _
  | search key => exact answered_alike hfg (hsame.search key) _
  | searchMany keys =>
    refine answered_alike hfg ?_ _
    have hsearch : g.search = f.search := funext hsame.search
    rw [hsearch]
  | range low high => exact answered_alike hfg (hsame.range low high) _
  | rangeDigest low high => exact answered_alike hfg (hsame.range low high) _
  | entries =>
    refine answered_alike hfg ?_ _
    rw [entries, entries, hsame.chain]
  | entriesDigest =>
    refine answered_alike hfg ?_ _
    rw [entries, entries, hsame.chain]
  | leftmostLeaf => exact answered_alike hfg (hsame.leafBy Route.leftmost) _
  | stats =>
    refine answered_alike hfg ?_ _
    rw [stats, stats, hsame.audit]
  | verify =>
    refine answered_alike hfg ?_ _
    rw [verify, verify, hsame.audit]
  | readPage id => exact answered_alike hfg (hsame.read id) _
  | sketches =>
    refine answered_alike hfg ?_ _
    rw [sketches, sketches, hsame.pageCount, hsame.sketchesFrom]

end Simulation

end PageFile

/-! ## (5) Runs with and without reopenings -/

/-- **What is done with an open file.** -/
inductive Event where
  /-- Something is asked of it through some access. -/
  | ask (access : Access) (request : Request)
  /-- It is let go of, saved first or not, and opened again. -/
  | reopen (saved : Bool)

namespace PageFile

variable {f g : PageFile}

/-- **What an event answers and leaves behind.** -/
def reopening (f : PageFile) : Event → Except Failure Answer × PageFile
  | .ask access request => request.perform access f
  | .reopen saved =>
    let (result, g) := f.call (.reopen saved f.sizing)
    (result.map fun _ => .done, g)

/-- **What an event answers and leaves behind when the file is kept open** instead of being opened
again. -/
def keepingOpen (f : PageFile) : Event → Except Failure Answer × PageFile
  | .ask access request => request.perform access f
  | .reopen _ => (.ok .done, f)

/-- **The file after a run of events**, one step each. -/
def afterEvents (step : PageFile → Event → Except Failure Answer × PageFile) (f : PageFile)
    (events : List Event) : PageFile :=
  events.foldl (fun f e => (step f e).2) f

/-- **The answers to a run of events**, in order. -/
def answersTo (step : PageFile → Event → Except Failure Answer × PageFile) (f : PageFile) :
    List Event → List (Except Failure Answer)
  | [] => []
  | e :: events => (step f e).1 :: answersTo step (step f e).2 events

section Runs

variable {step : PageFile → Event → Except Failure Answer × PageFile}

@[simp] theorem afterEvents_nil : afterEvents step f [] = f := rfl

@[simp] theorem afterEvents_cons (e : Event) (events : List Event) :
    afterEvents step f (e :: events) = afterEvents step (step f e).2 events := rfl

end Runs

/-- A property that the elementary actions keep is kept when the file is kept open. -/
theorem keepingOpen_of_keeps {P : PageFile → Prop} (hP : Simulation fun f g => f = g ∧ P f)
    (h : P f) (e : Event) : P (f.keepingOpen e).2 := by
  cases e with
  | ask access request =>
    have halike : ∀ f g, f = g ∧ P f → Alike f g := by
      rintro f _ ⟨rfl, -⟩
      exact Alike.refl f
    exact (hP.perform halike ⟨rfl, h⟩ request access).2.2
  | reopen saved => exact h

/-- The same for a run. -/
theorem afterEvents_of_keeps {P : PageFile → Prop} (hP : Simulation fun f g => f = g ∧ P f)
    (h : P f) (events : List Event) : P (afterEvents keepingOpen f events) := by
  induction events generalizing f with
  | nil => exact h
  | cons e events ih => exact ih (keepingOpen_of_keeps hP h e)

/-- The file stays on its system. -/
theorem host_afterEvents (f : PageFile) (events : List Event) :
    (afterEvents keepingOpen f events).host = f.host :=
  afterEvents_of_keeps (simulation_host f.host) rfl events

/-- **A file that can be mapped at the end of a run could be mapped at its start.** -/
theorem Settled.maps (h : f.Settled) {events : List Event}
    (hend : f.host.maps (afterEvents keepingOpen f events).image.length) :
    f.host.maps f.image.length := by
  rcases h.mapped with hmapped | hstuck
  · exact hmapped.2
  · have hlong := (afterEvents_of_keeps simulation_stuck hstuck events).long
    rw [host_afterEvents] at hlong
    exact absurd hend hlong

theorem Alike.settled (h : Alike f g) (hf : f.Settled) : g.Settled := by
  obtain ⟨dirty, rfl⟩ := h
  exact ⟨⟨hf.inUse.sound, hf.inUse.stored, hf.inUse.counted, hf.inUse.mapped⟩, hf.stamped,
    hf.mapped.imp id fun hs => ⟨hs.long, hs.full, hs.grown⟩⟩

theorem Alike.image (h : Alike f g) : g.image = f.image := by
  obtain ⟨dirty, rfl⟩ := h
  rfl

theorem Alike.host (h : Alike f g) : g.host = f.host := by
  obtain ⟨dirty, rfl⟩ := h
  rfl

/-- **One event**: a file that is opened again and one that is kept open stay alike. -/
theorem Alike.event (h : Alike f g) (hf : f.Settled) (hlength : f.host.maps f.image.length)
    (e : Event) :
    (g.reopening e).1.map Answer.forgetDirty = (f.keepingOpen e).1.map Answer.forgetDirty ∧
      Alike (f.keepingOpen e).2 (g.reopening e).2 := by
  cases e with
  | ask access request => exact simulation_alike.perform (fun _ _ h => h) h request access
  | reopen saved =>
    have hopen := (h.settled hf).openImage_leftBehind (by rwa [h.image, h.host])
      g.path saved g.sizing
    rw [reopening, PageFile.call, hopen]
    obtain ⟨dirty, rfl⟩ := h
    exact ⟨rfl, false, rfl⟩

/-- **A run of events.** -/
theorem Alike.run (h : Alike f g) (hf : f.Settled) (events : List Event)
    (hend : f.host.maps (afterEvents keepingOpen f events).image.length) :
    (answersTo reopening g events).map (Except.map Answer.forgetDirty)
        = (answersTo keepingOpen f events).map (Except.map Answer.forgetDirty) ∧
      Alike (afterEvents keepingOpen f events) (afterEvents reopening g events) := by
  induction events generalizing f g with
  | nil => exact ⟨rfl, h⟩
  | cons e events ih =>
    obtain ⟨hanswer, halike⟩ := h.event hf (hf.maps hend) e
    rw [afterEvents_cons, ← host_afterEvents f [e]] at hend
    obtain ⟨hanswers, hafter⟩ := ih halike (keepingOpen_of_keeps simulation_settled hf e) hend
    rw [answersTo, answersTo, List.map_cons, List.map_cons, hanswer, hanswers]
    exact ⟨rfl, hafter⟩

/-- **Opening a file again goes unseen.** In every run from the creation of a file, as long as the file
can be mapped: what is left behind at the end is the content as it stands, saved or not, and it is
opened as a file with the same record and the same nodes. And had the file been kept open instead of
being opened again on the way, the answers would have been the same, apart from what waits for a
flush, and so would the content at the end. -/
theorem reopening_unseen {host : Host} {path : String} {sizing : Sizing}
    (hcreate : create host path sizing = .ok f) (events : List Event)
    (hlength : host.maps (afterEvents keepingOpen f events).image.length) :
    (∀ saved, ((afterEvents keepingOpen f events).leftBehind saved).image
      = (afterEvents keepingOpen f events).image) ∧
    (∀ path sizing, ∃ g,
      openImage host path (afterEvents keepingOpen f events).image sizing = .ok g ∧
        g.record = (afterEvents keepingOpen f events).record ∧
        ∀ p, g.readPage p = (afterEvents keepingOpen f events).readPage p) ∧
    (answersTo reopening f events).map (Except.map Answer.forgetDirty)
      = (answersTo keepingOpen f events).map (Except.map Answer.forgetDirty) ∧
    (afterEvents reopening f events).image = (afterEvents keepingOpen f events).image ∧
    ∀ saved, ((afterEvents reopening f events).leftBehind saved).image
      = (afterEvents keepingOpen f events).image := by
  have hstart := settled_create hcreate
  have hsettled := afterEvents_of_keeps simulation_settled hstart events
  have hhost := host_of_create hcreate
  rw [← hhost] at hlength ⊢
  obtain ⟨hanswers, halike⟩ := (Alike.refl f).run hstart events hlength
  refine ⟨hsettled.stamped.image_leftBehind, fun path sizing => ?_, hanswers, halike.image,
    fun saved => ?_⟩
  · have hlast := host_afterEvents f events
    have hopen := hsettled.openImage_leftBehind (by rwa [hlast]) path true sizing
    rw [hsettled.stamped.image_leftBehind, hlast] at hopen
    exact ⟨_, hopen, rfl, fun _ => rfl⟩
  · rw [(halike.settled hsettled).stamped.image_leftBehind, halike.image]

/-- A run in which a file is dropped behind an insertion, and closed behind a lookup. -/
def interruptedRun : List Event :=
  [.ask .index (.insert 7 "seven"), .reopen false, .ask .pages (.allocate 1),
    .ask .index (.search 7), .reopen true, .ask .pages .info]

theorem reopening_unseen_newFile :
    (answersTo reopening newFile interruptedRun).map (Except.map Answer.forgetDirty)
        = (answersTo keepingOpen newFile interruptedRun).map (Except.map Answer.forgetDirty) ∧
      (afterEvents reopening newFile interruptedRun).image
        = (afterEvents keepingOpen newFile interruptedRun).image := by
  have hlength : (afterEvents keepingOpen newFile interruptedRun).image.length = 10485760 := rfl
  have hmapped : (default : Host).maps 10485760 := by decide
  obtain ⟨-, -, hanswers, himage, -⟩ :=
    reopening_unseen create_newFile interruptedRun (by rwa [hlength])
  exact ⟨hanswers, himage⟩

end PageFile

end RowIndex
