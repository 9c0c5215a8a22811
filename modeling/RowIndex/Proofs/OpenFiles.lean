import RowIndex.Proofs.PageReads
import RowIndex.Proofs.Simulations

/-! # Files in use

What is true of every file that was created or opened, whatever was done to it since.

* **`Metadata.read_of_image`** — a stored record is read back, if it can be trusted.
* **`PageFile.InUse`** — page 0 holds the record in force, and the counted pages are mapped.
* **`keeps_insert`**, `keeps_deleteValues` — the operations of an index keep a file in use.
* **`openImage_flushed`** — a saved file is opened again as it was, if its length can be mapped. -/

namespace RowIndex

/-! ## (1) The stored record -/

namespace Metadata

open Bytes LittleEndian

/-- The bytes of a page that starts with a record. -/
theorem byteAt_overwrite_image (p : Page) (m : Metadata) {j : Nat} (hj : j < 12) :
    byteAt (p.overwrite 0 m.image).bytes j = byteAt m.image j := by
  have hfit : 0 + m.image.size ≤ Layout.pageSize := by
    simp only [size_image, Layout.pageSize]
    omega
  rw [Page.byteAt_overwrite p hfit, if_pos ⟨Nat.zero_le j, by rw [size_image]; omega⟩,
    Nat.sub_zero]

theorem byteAt_image_of_lt (m : Metadata) {j : Nat} (hj : j < 8) :
    byteAt m.image j = byteAt m.fields j := by
  rw [image, pushWord_eq_append, byteAt_append, if_pos (by rw [size_fields]; omega)]

section Start

variable {b : ByteArray} {m : Metadata}

/-- The checksum stored with a record is that of its fields. -/
theorem wordAt_of_image (h : ∀ j, j < 12 → byteAt b j = byteAt m.image j) :
    wordAt b 8 = checksum m.fields := by
  have hself := wordAt_pushWord m.fields (checksum m.fields) ByteArray.empty
  rw [ByteArray.append_empty, size_fields] at hself
  rw [← hself]
  exact wordAt_congr fun k hk => h _ (by omega)

/-- The checksum covers the eight bytes before it. -/
theorem checksum_of_image (hsize : 12 ≤ b.size) (h : ∀ j, j < 12 → byteAt b j = byteAt m.image j) :
    checksum b = checksum m.fields := by
  have hextract : b.extract 0 8 = m.fields.extract 0 8 := by
    apply ext_byteAt
    · rw [ByteArray.size_extract, ByteArray.size_extract, size_fields]
      omega
    · intro j hj
      rw [byteAt_extract, byteAt_extract, Nat.zero_add]
      split
      · rename_i hlt
        rw [h j (by omega), byteAt_image_of_lt m hlt]
      · rfl
  rw [checksum, checksum, hextract]

/-- **A stored record is read back** from whatever starts with it, if it can be trusted. -/
theorem read_of_image (hsize : 12 ≤ b.size) (h : ∀ j, j < 12 → byteAt b j = byteAt m.image j) :
    read b =
      match m.defect? with
      | none => .ok m
      | some defect => .error defect := by
  have hroot : intAt b 0 = m.root.val := by
    have hself := intAt_pushInt_self ByteArray.empty m.root.val
    rw [← intAt_pushInt_of_le (by simp) m.pages] at hself
    rw [← hself]
    exact intAt_congr fun k hk => by
      rw [h _ (by omega), byteAt_image_of_lt m (by omega)]
      rfl
  have hpages : intAt b 4 = m.pages := by
    have hself := intAt_pushInt_self (pushInt ByteArray.empty m.root.val) m.pages
    rw [← hself]
    exact intAt_congr fun k hk => by
      rw [h _ (by omega), byteAt_image_of_lt m (by omega)]
      rfl
  rw [read, if_neg (show ¬ b.size < recordSize by simp only [recordSize]; omega)]
  simp only [wordAt_of_image h, checksum_of_image hsize h, hroot, hpages]
  exact if_neg (by simp)

end Start

/-- A record stored in a page is read back, if it can be trusted. -/
theorem read_overwrite (p : Page) (m : Metadata) :
    read (p.overwrite 0 m.image).bytes =
      match m.defect? with
      | none => .ok m
      | some defect => .error defect :=
  read_of_image (by rw [Page.size_bytes]; decide) fun _ hj => byteAt_overwrite_image p m hj

end Metadata

namespace PageFile

open RowIndex.Action

/-! ## (2) Files in use -/

/-- **What is true of every file in use.** -/
structure InUse (f : PageFile) : Prop where
  /-- The record in force can be trusted. -/
  sound : f.record.defect? = none
  /-- It is the one in page 0. -/
  stored : Metadata.read (f.image.page 0).bytes = .ok f.record
  /-- All counted pages are mapped. -/
  counted : f.pageCount * Layout.pageSize ≤ f.capacity
  /-- No more is mapped than there is. -/
  mapped : f.capacity ≤ f.image.length

/-- A record that can be trusted counts page 0. -/
theorem InUse.one_le_pageCount {f : PageFile} (h : f.InUse) : 1 ≤ f.pageCount := by
  have hpages := ((Metadata.defect?_eq_none_iff f.record).1 h.sound).1
  rw [pageCount, Metadata.pageCount]
  omega

/-- Page 0 after the record was stored. -/
theorem read_storeRecord {f : PageFile} (h : f.record.defect? = none) :
    Metadata.read (f.storeRecord.image.page 0).bytes = .ok f.record := by
  rw [page_storeRecord, if_pos rfl, Metadata.read_overwrite, h]

/-- Storing the record puts a file in use. -/
theorem inUse_storeRecord {f : PageFile} (hsound : f.record.defect? = none)
    (hcounted : f.pageCount * Layout.pageSize ≤ f.capacity) (hmapped : f.capacity ≤ f.image.length) :
    f.storeRecord.InUse where
  sound := hsound
  stored := read_storeRecord hsound
  counted := hcounted
  mapped := hmapped

/-- So does flushing. -/
theorem inUse_flushed {f : PageFile} (hsound : f.record.defect? = none)
    (hcounted : f.pageCount * Layout.pageSize ≤ f.capacity) (hmapped : f.capacity ≤ f.image.length) :
    f.flushed.InUse :=
  have h := inUse_storeRecord hsound hcounted hmapped
  ⟨h.sound, h.stored, h.counted, h.mapped⟩

/-- **When a file is created, and as what.** -/
theorem create_eq_ok_iff {host : Host} {path : String} {sizing : Sizing} {f : PageFile} :
    create host path sizing = .ok f ↔
      host.makes (max sizing.initialSize.toNat Layout.pageSize) ∧
        f = flushed ⟨path, FileImage.empty.resize (max sizing.initialSize.toNat Layout.pageSize),
          max sizing.initialSize.toNat Layout.pageSize, Metadata.empty, sizing, host, true⟩ := by
  rw [create]
  simp only
  split
  · rename_i hlength
    rw [and_iff_right hlength, Except.ok.injEq, eq_comm]
  · rename_i hlength
    exact iff_of_false (fun h => by cases h) fun h => hlength h.1

theorem inUse_create {host : Host} {path : String} {sizing : Sizing} {f : PageFile}
    (h : create host path sizing = .ok f) : f.InUse := by
  obtain ⟨-, rfl⟩ := create_eq_ok_iff.1 h
  have hsound : Metadata.empty.defect? = none := by decide
  have hcount : 1 * Layout.pageSize ≤ max sizing.initialSize.toNat Layout.pageSize := by
    rw [Nat.one_mul]
    exact Nat.le_max_right _ _
  exact inUse_flushed hsound hcount (Nat.le_of_eq (FileImage.length_resize _ _).symm)

/-- A new file lies on the system that made it. -/
theorem host_of_create {host : Host} {path : String} {sizing : Sizing} {f : PageFile}
    (h : create host path sizing = .ok f) : f.host = host := by
  obtain ⟨-, rfl⟩ := create_eq_ok_iff.1 h
  rfl

theorem inUse_openImage {host : Host} {path : String} {image : FileImage} {sizing : Sizing}
    {f : PageFile} (h : openImage host path image sizing = .ok f) : f.InUse := by
  obtain ⟨-, -, hread, hcounted, hf⟩ := openImage_eq_ok_iff.1 h
  have himage : f.image = image := by rw [hf]
  have hcapacity : f.capacity = image.length := by rw [hf]
  refine ⟨Metadata.defect?_of_read hread, ?_, ?_, ?_⟩
  · rwa [himage]
  · rwa [hcapacity]
  · exact Nat.le_of_eq (by rw [hcapacity, himage])

namespace InUse

variable {f : PageFile}

theorem storeRecord (h : f.InUse) : f.storeRecord.InUse :=
  inUse_storeRecord h.sound h.counted h.mapped

theorem flushed (h : f.InUse) : f.flushed.InUse :=
  inUse_flushed h.sound h.counted h.mapped

theorem released (h : f.InUse) : f.released.InUse := by
  unfold PageFile.released
  split
  · exact h.flushed
  · exact h

/-- Making room keeps a file in use, also when it fails. -/
theorem withRoom (h : f.InUse) : f.withRoom.2.InUse := by
  have hroom : (0 + 1) * Layout.pageSize ≤ f.grownLength := by
    simp only [grownLength, neededLength, Layout.pageSize]
    omega
  simp only [PageFile.withRoom]
  by_cases hfits : f.neededLength ≤ f.capacity
  · rw [if_pos hfits]
    exact h
  rw [if_neg hfits]
  have hstored : Metadata.read ((f.image.resize f.grownLength).page 0).bytes = .ok f.record := by
    rw [FileImage.page_resize hroom]
    exact h.stored
  -- the file had less than the needed length, so it only gets longer
  have hgrown : f.capacity ≤ f.grownLength := by
    simp only [grownLength]
    omega
  have hcounted : f.pageCount * Layout.pageSize ≤ f.grownLength :=
    Nat.le_trans h.counted hgrown
  split
  · exact h
  · split
    · split
      · exact ⟨h.sound, hstored, hcounted, Nat.le_of_eq (FileImage.length_resize _ _).symm⟩
      · exact ⟨h.sound, hstored, h.counted, by rwa [FileImage.length_resize]⟩
    · exact h

/-- So does clearing the next page, which is not page 0. -/
theorem withClearedPage (h : f.InUse) : f.withClearedPage.InUse := by
  have hpage : f.withClearedPage.image.page 0 = f.image.page 0 := by
    rw [page_withClearedPage, if_neg]
    have hone := h.one_le_pageCount
    rw [pageCount, Metadata.pageCount] at hone
    rw [nextPage, PageId.index]
    simp only
    omega
  refine ⟨h.sound, ?_, h.counted, h.mapped⟩
  rw [hpage]
  exact h.stored

end InUse

/-- Where there is room, the next page is mapped. -/
theorem neededLength_le_of_withRoom {f g : PageFile} (h : f.withRoom = (.ok (), g)) :
    f.neededLength ≤ g.capacity := by
  simp only [withRoom] at h
  split at h
  · rename_i hfits
    cases h
    exact hfits
  · split at h
    · cases h
    · split at h
      · split at h
        · cases h
          exact Nat.le_add_right _ _
        · cases h
      · cases h

theorem keeps_allocate : Keeps InUse allocate := by
  intro f h
  rw [runOn_allocate]
  have hkept := h.withRoom
  have hrecord := record_withRoom f
  rcases hroom : f.withRoom with ⟨failure | ok, g⟩
  · rwa [hroom] at hkept
  · rw [hroom] at hkept hrecord
    by_cases hfits : f.record.pages = Int32.maxValue
    · simp only [if_pos hfits]
      exact hkept.withClearedPage
    simp only [if_neg hfits]
    have hpages : g.withFreshPage.record.pages.toInt = f.record.pages.toInt + 1 := by
      rw [record_withFreshPage, hrecord]
      exact Metadata.toInt_pages_add_one hfits
    have hroot : g.withFreshPage.record.root = f.record.root := by
      rw [record_withFreshPage, hrecord]
    have hsound : g.withFreshPage.record.defect? = none := by
      obtain ⟨hone, halloc⟩ := (Metadata.defect?_eq_none_iff _).1 h.sound
      rw [Metadata.defect?_eq_none_iff, hroot]
      refine ⟨by omega, halloc.imp_right fun ha => ?_⟩
      rw [Metadata.isAllocated_iff] at ha ⊢
      omega
    refine ⟨hsound, read_storeRecord hsound, ?_, hkept.mapped⟩
    have hneeded := neededLength_le_of_withRoom hroom
    have hcount : g.withFreshPage.pageCount ≤ f.pageCount + 1 := by
      rw [pageCount, pageCount, Metadata.pageCount, Metadata.pageCount, hpages]
      omega
    rw [capacity_withFreshPage]
    exact Nat.le_trans (Nat.mul_le_mul_right _ hcount) hneeded

theorem keeps_writePage (node : Node) : Keeps InUse (writePage node) := by
  intro f h
  rw [runOn_writePage]
  split
  · rename_i ha
    split
    · exact h
    · -- the node goes to its own page, which is not page 0
      have hpage : (f.withNode node).image.page 0 = f.image.page 0 := by
        rw [page_withNode, if_neg]
        have := (Metadata.index_of_isAllocated ha).1
        omega
      refine ⟨h.sound, ?_, h.counted, h.mapped⟩
      rw [hpage]
      exact h.stored
  · exact h

theorem keeps_setRoot (root : PageId) : Keeps InUse (setRoot root) := by
  intro f h
  rw [runOn_setRoot]
  split
  · rename_i hroot
    have hsound : (f.withRoot root).record.defect? = none := by
      rw [record_withRoot, Metadata.defect?_eq_none_iff]
      exact ⟨((Metadata.defect?_eq_none_iff _).1 h.sound).1, hroot⟩
    exact ⟨hsound, read_storeRecord hsound, h.counted, h.mapped⟩
  · exact h

/-- **A flush keeps a file in use**, also when it fails. -/
theorem keeps_flush : Keeps InUse flush := by
  intro f h
  rw [runOn_flush]
  split
  · exact h.flushed
  · exact h.storeRecord

/-! ## (3) The operations of an index -/

theorem simulation_inUse : Simulation fun f g => f = g ∧ f.InUse :=
  simulation_of_keeps keeps_allocate keeps_writePage keeps_setRoot keeps_flush

/-- **An insertion keeps a file in use**, also when it fails. -/
theorem keeps_insert (key : Int32) (text : String) : Keeps InUse (insert key text) :=
  respects_iff_keeps.1 (simulation_inUse.insert key text)

/-- **A deletion keeps a file in use**, also when it fails. -/
theorem keeps_deleteValues (texts : List String) : Keeps InUse (deleteValues texts) :=
  respects_iff_keeps.1 (simulation_inUse.deleteValues texts)

/-- **A file stays on its system.** -/
theorem simulation_host (host : Host) : Simulation fun f g => f = g ∧ f.host = host := by
  refine simulation_of_keeps ?_ ?_ ?_ ?_
  · intro f h
    have hhost := host_withRoom f
    rw [runOn_allocate]
    rcases hroom : f.withRoom with ⟨failure | ok, g⟩
    · rw [hroom] at hhost
      exact hhost.trans h
    · rw [hroom] at hhost
      simp only
      split <;> exact hhost.trans h
  · intro node f h
    rw [runOn_writePage]
    split
    · split <;> exact h
    · exact h
  · intro root f h
    rw [runOn_setRoot]
    split <;> exact h
  · intro f h
    rw [runOn_flush]
    split <;> exact h

/-! ## (4) Opening a saved file -/

/-- A file in use is opened again as it is, if page 0 holds its record and its length can be
mapped. -/
theorem openImage_image {f : PageFile} {host : Host} (h : f.InUse)
    (hlength : host.maps f.image.length) (path : String) (sizing : Sizing) :
    openImage host path f.image sizing =
      .ok ⟨path, f.image, f.image.length, f.record, sizing, host, false⟩ := by
  refine openImage_eq_ok_iff.2 ⟨?_, hlength, h.stored, Nat.le_trans h.counted h.mapped, rfl⟩
  have hone := Nat.mul_le_mul_right Layout.pageSize h.one_le_pageCount
  have hcounted := Nat.le_trans h.counted h.mapped
  rw [Nat.one_mul] at hone
  exact Nat.le_trans hone hcounted

/-- **A saved file is opened again as it was**, if its length can be mapped. -/
theorem openImage_flushed {f : PageFile} {host : Host} (h : f.InUse)
    (hlength : host.maps f.image.length) (path : String) (sizing : Sizing) :
    openImage host path f.flushed.image sizing =
      .ok ⟨path, f.flushed.image, f.image.length, f.record, sizing, host, false⟩ :=
  openImage_image h.flushed hlength path sizing

/-- **What a saved file is opened as**, if at all: the record is the one that was saved, and all pages
read as before. -/
theorem openImage_flushed_eq_ok {f g : PageFile} {host : Host} {path : String} {sizing : Sizing}
    (h : openImage host path f.flushed.image sizing = .ok g) :
    g.record = f.record ∧ ∀ p, g.readPage p = f.readPage p := by
  obtain ⟨-, -, hread, -, hg⟩ := openImage_eq_ok_iff.1 h
  have himage : g.image = f.flushed.image := by rw [hg]
  have hrecord : g.record = f.record := by
    rw [image_flushed, page_storeRecord, if_pos rfl, Metadata.read_overwrite] at hread
    split at hread
    · exact (Except.ok.inj hread).symm
    · cases hread
  refine ⟨hrecord, fun p => ?_⟩
  have hread : g.readPage p = f.flushed.readPage p :=
    readPage_congr_of_record (hrecord.trans (record_flushed f).symm) p fun _ => by rw [himage]
  rw [hread, readPage_flushed]

end PageFile

end RowIndex
