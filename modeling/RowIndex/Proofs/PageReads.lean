import RowIndex.PageFile.Opening
import RowIndex.Proofs.NodeImage

/-! # What a page reads as after each elementary action

The pages of a file are known only through `PageFile.readPage`. Every elementary action changes what
one page reads as, at most, and keeps all others.

* **`readPage_eq_ok_iff`** — when a page is read, and as what.
* **`readPage_withNode`**, `readPage_withNodes` — after writing: the nodes on their own pages.
* **`readPage_withRoot`**, `readPage_flushed` — the record in page 0 is no node.
* **`readPage_withRoom`**, `readPage_withFreshPage` — making room and allocating keep every page.
* **`allocate_cases`**, `runOn_writePage_of_fits` — the two actions that can fail, with all that they
  can do.
* **`openImage_eq_ok_iff`** — which files can be opened. -/

namespace RowIndex

/-! ## (1) Numbers of pages -/

namespace Metadata

theorem isAllocated_iff (m : Metadata) (p : PageId) :
    m.isAllocated p = true ↔ 1 ≤ p.val.toInt ∧ p.val.toInt < m.pages.toInt := by
  have hone : (1 : Int32).toInt = 1 := by decide
  rw [isAllocated, Bool.and_eq_true, decide_eq_true_iff, decide_eq_true_iff,
    Int32.le_iff_toInt_le, Int32.lt_iff_toInt_lt, hone]

/-- Where a page is allocated, page 0 is counted. -/
theorem one_le_pages_of_isAllocated {m : Metadata} {p : PageId} (h : m.isAllocated p) :
    1 ≤ m.pages.toInt := by
  rw [isAllocated_iff] at h
  omega

/-- The place of an allocated page lies after page 0 and before the end. -/
theorem index_of_isAllocated {m : Metadata} {p : PageId} (h : m.isAllocated p) :
    1 ≤ p.index ∧ p.index < m.pageCount := by
  rw [isAllocated_iff] at h
  rw [PageId.index, pageCount]
  omega

/-- **Allocated pages lie at different places.** -/
theorem eq_of_index_eq {m m' : Metadata} {p q : PageId} (hp : m.isAllocated p)
    (hq : m'.isAllocated q) (h : p.index = q.index) : p = q := by
  rw [isAllocated_iff] at hp hq
  rw [PageId.index, PageId.index] at h
  obtain ⟨p⟩ := p
  obtain ⟨q⟩ := q
  exact congrArg PageId.mk (Int32.toInt_inj.1 (by simp only at hp hq h; omega))

/-- An allocated page has a number that can be that of a page. -/
theorem isValid_of_isAllocated {m : Metadata} {p : PageId} (h : m.isAllocated p) : p.isValid := by
  rw [isAllocated_iff] at h
  rw [PageId.isValid, decide_eq_true_iff, Int32.le_iff_toInt_le, Int32.toInt_zero]
  omega

/-- A page more is counted, if its number still fits. -/
theorem toInt_pages_add_one {m : Metadata} (h : m.pages ≠ Int32.maxValue) :
    (m.pages + 1).toInt = m.pages.toInt + 1 := by
  have hone : (1 : Int32).toInt = 1 := by decide
  have hmax : Int32.maxValue.toInt = 2147483647 := by decide
  have hne : m.pages.toInt ≠ 2147483647 := by
    intro heq
    exact h (Int32.toInt_inj.1 (heq.trans hmax.symm))
  have hle := m.pages.toInt_le
  have hge := m.pages.minValue_le_toInt
  have hmin : Int32.minValue.toInt = -2147483648 := by decide
  rw [hmax] at hle
  rw [hmin] at hge
  rw [Int32.toInt_add, hone]
  exact Int.bmod_eq_of_le (by omega) (by omega)

end Metadata

/-- A page is found at its place. -/
theorem PageId.ofIndex_index {p : PageId} (h : p.isValid) : PageId.ofIndex p.index = p :=
  congrArg PageId.mk (Int32.ofNat_toNatClampNeg p.val (of_decide_eq_true h))

/-- A place is that of its page, if its number fits. -/
theorem PageId.index_ofIndex {i : Nat} (h : i < 2147483648) : (PageId.ofIndex i).index = i := by
  rw [PageId.ofIndex, PageId.index, Int32.toInt_ofNat_of_lt h, Int.toNat_natCast]

/-! ## (2) Reading a page -/

namespace PageFile

/-- **When a page is read, and as what.** -/
theorem readPage_eq_ok_iff {f : PageFile} {p : PageId} {n : Node} :
    f.readPage p = .ok n ↔
      f.record.isAllocated p ∧ Node.decode (f.image.page p.index).bytes = .ok n ∧ n.id = p := by
  unfold readPage
  by_cases ha : f.record.isAllocated p
  · rw [if_pos ha]
    cases hd : Node.decode (f.image.page p.index).bytes with
    | error e => simp
    | ok node =>
      simp only [Except.ok.injEq]
      by_cases hid : node.id = p
      · rw [if_pos hid, Except.ok.injEq]
        constructor
        · rintro rfl
          exact ⟨ha, rfl, hid⟩
        · rintro ⟨-, rfl, -⟩
          rfl
      · rw [if_neg hid]
        constructor
        · intro h
          cases h
        · rintro ⟨-, rfl, h⟩
          exact absurd h hid
  · rw [if_neg ha]
    simp [ha]

theorem isAllocated_of_readPage {f : PageFile} {p : PageId} {n : Node} (h : f.readPage p = .ok n) :
    f.record.isAllocated p :=
  (readPage_eq_ok_iff.1 h).1

/-- What is read from a page carries the page's number. -/
theorem id_of_readPage {f : PageFile} {p : PageId} {n : Node} (h : f.readPage p = .ok n) :
    n.id = p :=
  (readPage_eq_ok_iff.1 h).2.2

/-- What is read from a page fits in one. -/
theorem defect?_of_readPage {f : PageFile} {p : PageId} {n : Node} (h : f.readPage p = .ok n) :
    n.defect? = none :=
  Node.defect?_of_decode (readPage_eq_ok_iff.1 h).2.1

/-- Reading a page is never a broken precondition. -/
theorem readPage_ne_fault (f : PageFile) (p : PageId) (fault : Fault) :
    f.readPage p ≠ .error (.fault fault) := by
  unfold readPage
  split
  · split
    · intro h
      cases h
    · split <;> intro h <;> cases h
  · intro h
    cases h

/-- **A page reads the same in two files** in which it is allocated with the same bytes. -/
theorem readPage_congr {f g : PageFile} {p : PageId} (hf : f.record.isAllocated p)
    (hg : g.record.isAllocated p) (h : g.image.page p.index = f.image.page p.index) :
    g.readPage p = f.readPage p := by
  rw [readPage, readPage, if_pos hf, if_pos hg, h]

/-- A page reads the same in two files with the same record in which its bytes are the same, if it is
allocated at all. -/
theorem readPage_congr_of_record {f g : PageFile} (hr : g.record = f.record) (p : PageId)
    (h : f.record.isAllocated p → g.image.page p.index = f.image.page p.index) :
    g.readPage p = f.readPage p := by
  by_cases ha : f.record.isAllocated p
  · exact readPage_congr ha (by rwa [hr]) (h ha)
  · rw [readPage, readPage, hr, if_neg ha, if_neg ha]

/-! ## (3) After a change -/

/-- **After a write, the node is on its own page** and every other page is as before. -/
theorem readPage_withNode {f : PageFile} {node : Node} (hfit : node.defect? = none)
    (ha : f.record.isAllocated node.id) (p : PageId) :
    (f.withNode node).readPage p = if p = node.id then .ok node else f.readPage p := by
  by_cases hp : p = node.id
  · rw [if_pos hp, hp, readPage_eq_ok_iff, page_withNode, if_pos rfl, record_withNode]
    exact ⟨ha, Node.decode_image hfit, rfl⟩
  · rw [if_neg hp]
    apply readPage_congr_of_record (record_withNode f node)
    intro hpa
    rw [page_withNode, if_neg]
    intro hindex
    exact hp (Metadata.eq_of_index_eq hpa ha hindex)

/-- **The file with some nodes on their pages.** -/
def withNodes (f : PageFile) (ns : List Node) : PageFile :=
  ns.foldl withNode f

@[simp] theorem withNodes_cons (f : PageFile) (n : Node) (ns : List Node) :
    f.withNodes (n :: ns) = (f.withNode n).withNodes ns := rfl

section Nodes

variable {f : PageFile} {ns : List Node}

/-- Other pages are kept. -/
theorem readPage_withNodes_of_not_mem (hfits : ∀ n ∈ ns, n.defect? = none)
    (ha : ∀ n ∈ ns, f.record.isAllocated n.id) {p : PageId} (hp : p ∉ ns.map Node.id) :
    (f.withNodes ns).readPage p = f.readPage p := by
  induction ns generalizing f with
  | nil => rfl
  | cons n ns ih =>
    obtain ⟨hfit, hfits⟩ := List.forall_mem_cons.1 hfits
    obtain ⟨hn, ha⟩ := List.forall_mem_cons.1 ha
    rw [List.map_cons, List.mem_cons, not_or] at hp
    have hrest := ih (f := f.withNode n) hfits ha hp.2
    rw [withNodes_cons, hrest, readPage_withNode hfit hn, if_neg hp.1]

/-- **Nodes for different pages are all read from them.** -/
theorem readPage_withNodes (hfits : ∀ n ∈ ns, n.defect? = none)
    (ha : ∀ n ∈ ns, f.record.isAllocated n.id) (hnodup : (ns.map Node.id).Nodup) :
    ∀ n ∈ ns, (f.withNodes ns).readPage n.id = .ok n := by
  induction ns generalizing f with
  | nil => exact fun n hn => nomatch hn
  | cons n ns ih =>
    obtain ⟨hfit, hfits⟩ := List.forall_mem_cons.1 hfits
    obtain ⟨hn, ha⟩ := List.forall_mem_cons.1 ha
    obtain ⟨hid, hnodup⟩ := List.nodup_cons.1 hnodup
    refine List.forall_mem_cons.2 ⟨?_, ih hfits ha hnodup⟩
    have hrest := readPage_withNodes_of_not_mem (f := f.withNode n) hfits ha hid
    rw [withNodes_cons, hrest, readPage_withNode hfit hn, if_pos rfl]

end Nodes

/-- The record in page 0 is no node. -/
@[simp] theorem readPage_storeRecord (f : PageFile) (p : PageId) :
    f.storeRecord.readPage p = f.readPage p := by
  apply readPage_congr_of_record (record_storeRecord f)
  intro ha
  rw [page_storeRecord, if_neg]
  have := Metadata.index_of_isAllocated ha
  omega

@[simp] theorem readPage_flushed (f : PageFile) (p : PageId) :
    f.flushed.readPage p = f.readPage p :=
  readPage_storeRecord f p

@[simp] theorem record_flushed (f : PageFile) : f.flushed.record = f.record := rfl

@[simp] theorem image_flushed (f : PageFile) : f.flushed.image = f.storeRecord.image := rfl

/-- **Another root keeps every page.** -/
@[simp] theorem readPage_withRoot (f : PageFile) (root p : PageId) :
    (f.withRoot root).readPage p = f.readPage p :=
  readPage_storeRecord { f with record := { f.record with root := root }, dirty := true } p

end PageFile

/-! ## (4) Room for pages -/

/-- **Cutting or extending a file keeps every page** that lies in the new length as a whole. -/
theorem FileImage.page_resize {f : FileImage} {n k : Nat} (h : (k + 1) * Layout.pageSize ≤ n) :
    (f.resize n).page k = f.page k := by
  simp only [Layout.pageSize] at h
  by_cases hlen : f.length ≤ n
  · exact page_resize_of_le hlen k
  · -- a block that starts before the new end is kept
    have kept : (f.blocks.filter fun k _ => decide (k * Layout.pageSize < n)).getD k Page.zero
        = f.blocks.getD k Page.zero := by
      have hk : k * Layout.pageSize < n := by
        simp only [Layout.pageSize]
        omega
      rw [Std.ExtTreeMap.getD_eq_getD_getElem?, Std.ExtTreeMap.getD_eq_getD_getElem?,
        Std.ExtTreeMap.getElem?_filter']
      cases f.blocks[k]? with
      | none => rfl
      | some page => simp only [Option.filter_some, decide_eq_true hk, if_true]
    simp only [resize, if_neg hlen, page]
    split
    · exact kept
    · rw [Std.ExtTreeMap.getD_insert, if_neg, kept]
      simp only [Nat.compare_eq_eq, Layout.pageSize]
      omega

namespace PageFile

/-- **Making room keeps every page**, whether it succeeds or not. -/
theorem readPage_withRoom (f : PageFile) (p : PageId) :
    f.withRoom.2.readPage p = f.readPage p := by
  apply readPage_congr_of_record (record_withRoom f)
  intro ha
  have hp := (Metadata.index_of_isAllocated ha).2
  have hroom : (p.index + 1) * Layout.pageSize ≤ f.grownLength := by
    simp only [grownLength, neededLength, pageCount, Layout.pageSize]
    omega
  simp only [withRoom]
  split
  · rfl
  · split
    · rfl
    · split
      · split <;> exact FileImage.page_resize hroom
      · rfl

/-- **Why a file has no room for another page.** -/
inductive NoRoom (f : PageFile) : Failure → Prop
  /-- It could not be counted. -/
  | uncountable : f.record.pages = Int32.maxValue → NoRoom f (.fault .pageCountOverflow)
  /-- It lies past what is mapped, and the length of the file with it does not fit in its word. -/
  | overlong : f.capacity < f.neededLength → UInt64.size ≤ f.grownLength →
      NoRoom f (.fault .lengthOverflow)
  /-- It lies past what is mapped, and the file cannot be made so long. -/
  | refused : f.capacity < f.neededLength → ¬ f.host.lengthens f.capacity f.grownLength →
      NoRoom f (.error .io)

/-- Making room fails only when there is none. -/
theorem noRoom_of_withRoom {f g : PageFile} {failure : Failure}
    (h : f.withRoom = (.error failure, g)) : g.NoRoom failure := by
  simp only [withRoom] at h
  split at h
  · cases h
  · rename_i hneeded
    have hshort := Nat.lt_of_not_le hneeded
    split at h
    · rename_i hlength
      cases h
      exact .overlong hshort hlength
    · split at h
      · split at h
        · cases h
        · rename_i hmaps
          cases h
          exact .refused hshort fun hlengthens => hmaps (Host.lengthens_iff.1 hlengthens).2
      · rename_i hset
        cases h
        exact .refused hshort fun hlengthens => hset (Host.lengthens_iff.1 hlengthens).1

/-- **The page behind the last counted one is not read**, so it can be cleared. -/
@[simp] theorem readPage_withClearedPage (f : PageFile) (p : PageId) :
    f.withClearedPage.readPage p = f.readPage p := by
  apply readPage_congr_of_record (record_withClearedPage f)
  intro ha
  have hp := (Metadata.index_of_isAllocated ha).2
  rw [page_withClearedPage, if_neg]
  rw [Metadata.pageCount] at hp
  rw [nextPage, PageId.index, PageId.index]
  rw [PageId.index] at hp
  simp only
  omega

/-- **A page more keeps all pages before it.** -/
theorem readPage_withFreshPage {f : PageFile} (hfits : f.record.pages ≠ Int32.maxValue) {p : PageId}
    (ha : f.record.isAllocated p) : f.withFreshPage.readPage p = f.readPage p := by
  rw [withFreshPage, readPage_storeRecord, ← readPage_withClearedPage f]
  refine readPage_congr ha ?_ rfl
  rw [Metadata.isAllocated_iff] at ha ⊢
  have := Metadata.toInt_pages_add_one hfits
  simp only
  omega

/-- **What an allocation does when it succeeds**: one page more is counted, and all pages before it
read as they did. -/
structure Allocated (f g : PageFile) : Prop where
  /-- The record counts one page more. -/
  record : g.record = { f.record with pages := f.record.pages + 1 }
  /-- The page count still fits in its word. -/
  fits : f.record.pages ≠ Int32.maxValue
  /-- The pages allocated before are kept. -/
  read : ∀ p, f.record.isAllocated p → g.readPage p = f.readPage p

/-- **What an allocation does when it finds no room**: nothing that is read changes. -/
structure Refused (f : PageFile) (failure : Failure) (g : PageFile) : Prop where
  /-- The allocation fails. -/
  run : allocate.runOn f = (.error failure, g)
  /-- There is no room. -/
  noRoom : g.NoRoom failure
  /-- The record stays. -/
  record : g.record = f.record
  /-- All pages are kept. -/
  read : ∀ p, g.readPage p = f.readPage p

/-- **All that an allocation can do**: it finds no room, or it counts one page more. -/
theorem allocate_cases (f : PageFile) :
    (∃ failure g, allocate.runOn f = (.error failure, g) ∧ Refused f failure g) ∨
    (∃ g, allocate.runOn f = (.ok f.nextPage, g) ∧ Allocated f g) := by
  have hrecord := record_withRoom f
  have hread := readPage_withRoom f
  have hrun := runOn_allocate f
  -- the file may have to be made longer, which can fail
  rcases hroom : f.withRoom with ⟨failure | ok, g⟩
  · rw [hroom] at hrecord hread hrun
    exact Or.inl ⟨failure, g, hrun, hrun, noRoom_of_withRoom hroom, hrecord, hread⟩
  · rw [hroom] at hrecord hread hrun
    by_cases hfits : f.record.pages = Int32.maxValue
    · -- no further page can be counted
      have hrun := hrun.trans (if_pos hfits)
      refine Or.inl ⟨_, g.withClearedPage, hrun, hrun, ?_, hrecord, fun p => ?_⟩
      · exact .uncountable ((congrArg Metadata.pages hrecord).trans hfits)
      · rw [readPage_withClearedPage, hread]
    · refine Or.inr ⟨g.withFreshPage, hrun.trans (if_neg hfits), ?_, hfits, fun p hp => ?_⟩
      · rw [record_withFreshPage, hrecord]
      · rw [readPage_withFreshPage (by rwa [hrecord]) (by rwa [hrecord]), hread]

/-- Where the next page lies in what is mapped, an allocation succeeds without growth. -/
theorem runOn_allocate_of_room {f : PageFile} (hfits : f.record.pages ≠ Int32.maxValue)
    (hroom : f.neededLength ≤ f.capacity) :
    allocate.runOn f = (.ok f.nextPage, f.withFreshPage) := by
  rw [runOn_allocate, withRoom, if_pos hroom]
  exact if_neg hfits

/-- **The page to be allocated next is not allocated yet.** -/
theorem not_isAllocated_nextPage (f : PageFile) : ¬ f.record.isAllocated f.nextPage := by
  rw [Metadata.isAllocated_iff, nextPage]
  simp only
  omega

namespace Allocated

variable {f g : PageFile} (h : Allocated f g)

include h

theorem toInt_pages : g.record.pages.toInt = f.record.pages.toInt + 1 := by
  rw [h.record]
  exact Metadata.toInt_pages_add_one h.fits

/-- Allocated pages stay allocated. -/
theorem isAllocated {p : PageId} (hp : f.record.isAllocated p) : g.record.isAllocated p := by
  have := h.toInt_pages
  rw [Metadata.isAllocated_iff] at hp ⊢
  omega

/-- The new page is allocated now, unless the count was below one. -/
theorem isAllocated_nextPage (hpages : 1 ≤ f.record.pages.toInt) :
    g.record.isAllocated f.nextPage := by
  have := h.toInt_pages
  rw [Metadata.isAllocated_iff, nextPage]
  exact ⟨hpages, by simp only; omega⟩

theorem root : g.root = f.root := by
  rw [PageFile.root, h.record]
  rfl

end Allocated

/-- **Writing a node that fits to an allocated page succeeds.** -/
theorem runOn_writePage_of_fits {f : PageFile} {node : Node} (ha : f.record.isAllocated node.id)
    (hfit : node.defect? = none) : (writePage node).runOn f = (.ok (), f.withNode node) := by
  rw [runOn_writePage, if_pos ha, Node.check, hfit]

/-! ## (5) Opening -/

/-- **When a file is opened, and as what.** -/
theorem openImage_eq_ok_iff {host : Host} {path : String} {image : FileImage} {sizing : Sizing}
    {f : PageFile} :
    openImage host path image sizing = .ok f ↔
      Layout.pageSize ≤ image.length ∧ host.maps image.length ∧
        Metadata.read (image.page 0).bytes = .ok f.record ∧
        f.pageCount * Layout.pageSize ≤ image.length ∧
        f = ⟨path, image, image.length, f.record, sizing, host, false⟩ := by
  rw [openImage]
  by_cases hlength : image.length < Layout.pageSize
  · rw [if_pos hlength]
    refine iff_of_false (by simp) fun h => ?_
    exact absurd h.1 (Nat.not_le.2 hlength)
  rw [if_neg hlength]
  by_cases hmapped : host.maps image.length
  · -- the length is right, so the record decides
    rw [if_pos hmapped]
    cases hread : Metadata.read (image.page 0).bytes with
    | error defect => simp
    | ok record =>
      simp only
      constructor
      · intro h
        split at h
        · cases h
        · rename_i hpages
          cases h
          exact ⟨Nat.le_of_not_lt hlength, hmapped, rfl, Nat.le_of_not_lt hpages, rfl⟩
      · rintro ⟨-, -, hrecord, hpages, hf⟩
        cases hrecord
        rw [PageFile.pageCount] at hpages
        rw [if_neg (Nat.not_lt.2 hpages), ← hf]
  · rw [if_neg hmapped]
    exact iff_of_false (by simp) fun h => hmapped h.2.1

end PageFile

namespace Metadata

/-- **A record that can be trusted** counts a page, and its root is none or allocated. -/
theorem defect?_eq_none_iff (m : Metadata) :
    m.defect? = none ↔ 1 ≤ m.pages.toInt ∧ (m.root = .none ∨ m.isAllocated m.root) := by
  have hone : (1 : Int32).toInt = 1 := by decide
  rw [defect?]
  by_cases hpages : m.pages < 1
  · rw [if_pos hpages]
    rw [Int32.lt_iff_toInt_lt, hone] at hpages
    refine iff_of_false (by simp) fun h => ?_
    omega
  · rw [if_neg hpages]
    rw [Int32.lt_iff_toInt_lt, hone] at hpages
    split
    · rename_i hroot
      exact iff_of_true rfl ⟨by omega, hroot⟩
    · rename_i hroot
      exact iff_of_false (by simp) fun h => hroot h.2

/-- What is read from a file can be trusted. -/
theorem defect?_of_read {b : ByteArray} {m : Metadata} (h : read b = .ok m) : m.defect? = none := by
  rw [read] at h
  split at h
  · cases h
  · simp only at h
    split at h
    · cases h
    · split at h
      · rename_i hdefect
        obtain rfl := Except.ok.inj h
        exact hdefect
      · cases h

end Metadata

end RowIndex
