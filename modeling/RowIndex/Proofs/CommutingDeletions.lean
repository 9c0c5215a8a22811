import RowIndex.Proofs.TreeShapes

/-! # Deletions and insertions in any order

Two runs with the same keys end in files of one shape. If their trees have the same entries too, the
files are the same, byte for byte: a page is the image of its node, a page outside the tree has no
slots, and no other page was ever written. So it is enough to look at lists of entries to see that
deletions compose, and that they may change places with insertions of other row identifiers.

* **`Tree.eq_of_mapSlots_eq`** — a tree is known by its shape and its entries.
* **`PageFile.Written`** — all counted pages were written.
* **`PageFile.Canonical`** — a file whose content is known by its nodes; `Canonical.afterCalls` for runs
  of calls.
* **`Canonical.image_eq`** — files of one shape with the same entries are the same, byte for byte.
* **`deletions_compose_and_commute`** — deletions in a row, and a deletion and an insertion, in either
  order. -/

namespace RowIndex

namespace Tree

/-! ## (1) Shapes and entries -/

/-- **A row of trees is known by shapes and entries** if each tree is. -/
theorem row_eq_of_mapSlots_eq {φ : PageId → RowId → RowId} {ts us : List Tree}
    (h : ∀ t ∈ ts, ∀ u, t.mapSlots φ = u.mapSlots φ → t.entries = u.entries → t = u)
    (hshape : ts.map (mapSlots φ) = us.map (mapSlots φ))
    (hentries : ts.flatMap entries = us.flatMap entries) : ts = us := by
  induction ts generalizing us with
  | nil => exact (List.map_eq_nil_iff.1 hshape.symm).symm
  | cons t ts ih =>
    obtain _ | ⟨u, us⟩ := us
    · cases hshape
    obtain ⟨hhead, htail⟩ := List.cons.inj hshape
    -- trees of one shape have equally many entries
    have hlength : t.entries.length = u.entries.length := by
      have hkeys := congrArg List.length (map_fst_entries_mapSlots φ t)
      rw [hhead, map_fst_entries_mapSlots, List.length_map, List.length_map] at hkeys
      exact hkeys.symm
    rw [List.flatMap_cons, List.flatMap_cons] at hentries
    obtain ⟨hfirst, hrest⟩ := List.append_inj hentries hlength
    rw [h t List.mem_cons_self u hhead hfirst,
      ih (fun s hs => h s (List.mem_cons_of_mem _ hs)) htail hrest]

/-- **A tree is known by its shape and its entries.** -/
theorem eq_of_mapSlots_eq {φ : PageId → RowId → RowId} {t u : Tree}
    (hshape : t.mapSlots φ = u.mapSlots φ) (hentries : t.entries = u.entries) : t = u := by
  induction t generalizing u with
  | leaf id es next =>
    cases u with
    | leaf id' es' next' =>
      rw [mapSlots_leaf, mapSlots_leaf, Tree.leaf.injEq] at hshape
      rw [entries_leaf, entries_leaf] at hentries
      rw [hshape.1, hentries, hshape.2.2]
    | branch id' keys' children' =>
      rw [mapSlots_leaf, mapSlots_branch] at hshape
      cases hshape
  | branch id keys children ih =>
    cases u with
    | leaf id' es' next' =>
      rw [mapSlots_leaf, mapSlots_branch] at hshape
      cases hshape
    | branch id' keys' children' =>
      rw [mapSlots_branch, mapSlots_branch, Tree.branch.injEq] at hshape
      rw [entries_branch, entries_branch] at hentries
      rw [hshape.1, hshape.2.1, row_eq_of_mapSlots_eq (fun t ht u => ih t ht) hshape.2.2 hentries]

/-- A row of trees is known by their pages if each tree is. -/
theorem map_mapSlots_eq {φ : PageId → RowId → RowId} {ts us : List Tree}
    (hpages : us.map page = ts.map page)
    (h : ∀ t ∈ ts, ∀ u ∈ us, u.page = t.page → u.mapSlots φ = t.mapSlots φ) :
    us.map (mapSlots φ) = ts.map (mapSlots φ) := by
  induction ts generalizing us with
  | nil => rw [List.map_eq_nil_iff.1 hpages]
  | cons t ts ih =>
    obtain _ | ⟨u, us⟩ := us
    · cases hpages
    obtain ⟨hhead, htail⟩ := List.cons.inj hpages
    rw [List.map_cons, List.map_cons, h t List.mem_cons_self u List.mem_cons_self hhead,
      ih htail fun t ht u hu => h t (List.mem_cons_of_mem _ ht) u (List.mem_cons_of_mem _ hu)]

end Tree

namespace Node

/-- Without slots there is no difference. -/
theorem SameButSlots.eq_of_bare {n m : Node} (h : n.SameButSlots m) (hn : PageFile.Bare n) :
    m = n := by
  cases h with
  | @leaf id keys values values' next hlength =>
    have hvalues : values = [] := hn
    rw [hvalues] at hlength
    rw [hvalues, List.length_eq_zero_iff.1 hlength.symm]
  | internal => rfl

end Node

/-! ## (2) Written pages -/

namespace FileImage

/-- Replacing a page writes it and no other. -/
theorem mem_blocks_setPage (image : FileImage) (k : Nat) (page : Page) (j : Nat) :
    j ∈ (image.setPage k page).blocks ↔ j = k ∨ j ∈ image.blocks := by
  rw [setPage, Std.ExtTreeMap.mem_insert, Nat.compare_eq_eq, eq_comm]

/-- A file that only gets longer keeps what was written. -/
theorem blocks_resize_of_le {image : FileImage} {n : Nat} (h : image.length ≤ n) :
    (image.resize n).blocks = image.blocks := by
  rw [resize, if_pos h]

/-- **The content of a file is known by its length and by the pages that were written.** -/
theorem eq_of_page_eq {image image' : FileImage} (hlength : image'.length = image.length)
    (hwritten : ∀ i, i ∈ image'.blocks ↔ i ∈ image.blocks)
    (hpages : ∀ i ∈ image.blocks, image'.page i = image.page i) : image' = image := by
  have hblocks : image'.blocks = image.blocks := by
    apply Std.ExtTreeMap.ext_getElem?
    intro i
    by_cases hi : i ∈ image.blocks
    · have hsame := hpages i hi
      rw [page, page, Std.ExtTreeMap.getD_eq_getD_getElem?, Std.ExtTreeMap.getD_eq_getD_getElem?,
        Std.ExtTreeMap.getElem?_eq_some_getElem hi,
        Std.ExtTreeMap.getElem?_eq_some_getElem ((hwritten i).2 hi)] at hsame
      rw [Std.ExtTreeMap.getElem?_eq_some_getElem hi,
        Std.ExtTreeMap.getElem?_eq_some_getElem ((hwritten i).2 hi)]
      exact congrArg some hsame
    · rw [Std.ExtTreeMap.getElem?_eq_none hi,
        Std.ExtTreeMap.getElem?_eq_none fun h => hi ((hwritten i).1 h)]
  obtain ⟨length, blocks⟩ := image
  obtain ⟨length', blocks'⟩ := image'
  exact congr (congrArg FileImage.mk hlength) hblocks

end FileImage

namespace PageFile

open RowIndex.Tree RowIndex.Action

variable {f g : PageFile} {sizing : Sizing} {L : List (Int32 × RowId)}

/-- **All counted pages were written.** -/
def Written (f : PageFile) : Prop :=
  ∀ i, i < f.pageCount → i ∈ f.image.blocks

/-- **Making room writes no page**: a settled file only gets longer. -/
theorem Settled.blocks_withRoom (h : f.Settled) : f.withRoom.2.image.blocks = f.image.blocks := by
  rcases h.mapped with hmapped | hstuck
  · unfold PageFile.withRoom
    split
    · rfl
    · rename_i hneeded
      have hlonger : f.image.length ≤ f.grownLength := by
        rw [grownLength, ← hmapped.1]
        omega
      split
      · rfl
      · split
        · split <;> exact FileImage.blocks_resize_of_le hlonger
        · rfl
  · obtain ⟨failure, hstays⟩ := hstuck.withRoom
    rw [hstays]

theorem Written.storeRecord (h : f.Written) : f.storeRecord.Written := fun i hi =>
  (FileImage.mem_blocks_setPage _ _ _ i).2 (Or.inr (h i hi))

theorem Written.withClearedPage (h : f.Written) : f.withClearedPage.Written := fun i hi =>
  (FileImage.mem_blocks_setPage _ _ _ i).2 (Or.inr (h i hi))

theorem pageCount_withFreshPage (hone : 1 ≤ f.record.pages.toInt)
    (hfits : f.record.pages ≠ Int32.maxValue) : f.withFreshPage.pageCount = f.pageCount + 1 := by
  have hmore := Metadata.toInt_pages_add_one hfits
  rw [pageCount, pageCount, Metadata.pageCount, Metadata.pageCount, record_withFreshPage]
  simp only
  omega

theorem Written.withFreshPage (h : f.Written) (hone : 1 ≤ f.record.pages.toInt)
    (hfits : f.record.pages ≠ Int32.maxValue) : f.withFreshPage.Written := by
  intro i hi
  rw [pageCount_withFreshPage hone hfits] at hi
  refine (FileImage.mem_blocks_setPage _ _ _ i).2 (Or.inr ?_)
  refine (FileImage.mem_blocks_setPage _ _ _ i).2 ?_
  -- the last counted page is the one that was cleared
  rcases Nat.lt_succ_iff_lt_or_eq.1 hi with hlt | heq
  · exact Or.inr (h i hlt)
  · exact Or.inl heq

/-- **Allocating writes the next page.** -/
theorem keeps_allocate_written : Keeps (fun f => f.Settled ∧ f.Written) allocate := by
  rintro f ⟨hsettled, hwritten⟩
  refine ⟨keeps_allocate_settled f hsettled, ?_⟩
  have hone := ((Metadata.defect?_eq_none_iff f.record).1 hsettled.inUse.sound).1
  have hrecord := record_withRoom f
  have hroom : f.withRoom.2.Written := by
    intro i hi
    rw [pageCount, hrecord] at hi
    rw [hsettled.blocks_withRoom]
    exact hwritten i hi
  rw [runOn_allocate]
  rcases hf : f.withRoom with ⟨failure | ok, g⟩
  · rwa [hf] at hroom
  · rw [hf] at hroom hrecord
    simp only
    split
    · exact hroom.withClearedPage
    · rename_i hfits
      exact hroom.withFreshPage (by rwa [hrecord]) (by rwa [hrecord])

/-- No page is taken away when a node is written. -/
theorem keeps_writePage_written (node : Node) :
    Keeps (fun f => f.Settled ∧ f.Written) (writePage node) := by
  rintro f ⟨hsettled, hwritten⟩
  refine ⟨keeps_writePage_settled node f hsettled, ?_⟩
  rw [runOn_writePage]
  split
  · cases node.check with
    | error e => exact hwritten
    | ok u => exact fun i hi => (FileImage.mem_blocks_setPage _ _ _ i).2 (Or.inr (hwritten i hi))
  · exact hwritten

theorem keeps_setRoot_written (root : PageId) :
    Keeps (fun f => f.Settled ∧ f.Written) (setRoot root) := by
  rintro f ⟨hsettled, hwritten⟩
  refine ⟨keeps_setRoot_settled root f hsettled, ?_⟩
  rw [runOn_setRoot]
  split
  · exact Written.storeRecord (f := { f with record := { f.record with root := root }, dirty := true })
      hwritten
  · exact hwritten

theorem keeps_flush_written : Keeps (fun f => f.Settled ∧ f.Written) flush := by
  rintro f ⟨hsettled, hwritten⟩
  refine ⟨keeps_flush_settled f hsettled, ?_⟩
  rw [runOn_flush]
  split <;> exact hwritten.storeRecord

theorem simulation_written : Simulation fun f g => f = g ∧ f.Settled ∧ f.Written :=
  simulation_of_keeps keeps_allocate_written keeps_writePage_written keeps_setRoot_written
    keeps_flush_written

/-! ## (3) Files whose content is known by their nodes -/

/-- A file with a twin has the shape of itself. -/
theorem Twins.self_right (h : Twins sizing f g) : Twins sizing g g :=
  h.symm.trans h

/-- **A file whose content is known by its nodes**: each page was written, and is the page of its node
unless it holds no slots. -/
structure Canonical (sizing : Sizing) (f : PageFile) : Prop where
  /-- The file has the shape of itself. -/
  twin : Twins sizing f f
  /-- All counted pages were written. -/
  written : f.Written

theorem canonical_create {host : Host} {path : String} (h : create host path sizing = .ok f) :
    Canonical sizing f := by
  refine ⟨twins_create h h, ?_⟩
  obtain ⟨-, rfl⟩ := create_eq_ok_iff.1 h
  -- only the record is counted, and it was written
  intro i hi
  exact (FileImage.mem_blocks_setPage _ _ _ i).2 (Or.inl (Nat.lt_one_iff.1 hi))

namespace Canonical

/-- What the operations of an index keep. -/
theorem written_runOn {α : Type} {action : Action α} (h : Canonical sizing f)
    (haction : Respects (fun f g => f = g ∧ f.Settled ∧ f.Written) action) :
    (action.runOn f).2.Written :=
  (respects_iff_keeps.1 haction f ⟨h.twin.left, h.written⟩).2

theorem insert (h : Canonical sizing f) (key : Int32) (text : String) :
    Canonical sizing ((PageFile.insert key text).runOn f).2 :=
  ⟨h.twin.insert key text text, h.written_runOn (simulation_written.insert key text)⟩

theorem deleteValues (h : Canonical sizing f) (texts : List String) :
    Canonical sizing ((PageFile.deleteValues texts).runOn f).2 :=
  ⟨(h.twin.deleteValues texts).self_right, h.written_runOn (simulation_written.deleteValues texts)⟩

theorem flush (h : Canonical sizing f) : Canonical sizing (flush.runOn f).2 :=
  ⟨h.twin.flush.self_right, h.written_runOn simulation_written.flush⟩

theorem leftBehind (h : Canonical sizing f) (saved : Bool) : Canonical sizing (f.leftBehind saved) := by
  refine ⟨(h.twin.leftBehind saved).self_right, fun i hi => ?_⟩
  rw [pageCount, record_leftBehind] at hi
  rw [h.twin.left.stamped.image_leftBehind]
  exact h.written i hi

/-- **A call keeps the content of a file known by its nodes**, though the sizing can change. -/
theorem call (h : Canonical sizing f) (c : Call) : ∃ sizing', Canonical sizing' (f.call c).2 := by
  cases c with
  | insert key text => exact ⟨sizing, h.insert key text⟩
  | deleteValues texts => exact ⟨sizing, h.deleteValues texts⟩
  | save => exact ⟨sizing, h.flush⟩
  | reopen saved s =>
    rw [PageFile.call]
    split
    · rename_i g hopen
      have hlength := (openImage_eq_ok_iff.1 hopen).2.1
      rw [length_image_leftBehind] at hlength
      rw [h.twin.left.openImage_leftBehind hlength] at hopen
      have hsettled := h.twin.left.reopened hlength f.path s
      obtain rfl := Except.ok.inj hopen
      exact ⟨s, ⟨hsettled, hsettled, ⟨rfl, rfl, rfl, rfl, h.twin.shape.pages,
        fun _ _ => rfl, rfl, rfl, rfl⟩⟩, h.written⟩
    · exact ⟨sizing, h.leftBehind saved⟩

theorem afterCalls (h : Canonical sizing f) (calls : List Call) :
    ∃ sizing', Canonical sizing' (f.afterCalls calls) := by
  induction calls generalizing f sizing with
  | nil => exact ⟨sizing, h⟩
  | cons c calls ih =>
    obtain ⟨sizing', hcall⟩ := h.call c
    exact ih hcall

end Canonical

/-! ## (4) Files of one shape with the same entries -/

/-- Two nodes on the same page differ in their slots at most. -/
theorem SameShape.sameButSlots (h : SameShape sizing f g) {p : PageId} {n m : Node}
    (hn : f.readPage p = .ok n) (hm : g.readPage p = .ok m) : n.SameButSlots m := by
  rcases h.readPage p with ⟨failure, hf, -⟩ | ⟨n', m', hf, hg, hsame⟩
  · rw [hn] at hf
    cases hf
  · obtain rfl := Except.ok.inj (hn.symm.trans hf)
    obtain rfl := Except.ok.inj (hm.symm.trans hg)
    exact hsame

/-- **Files of one shape hold trees of one shape** on the same pages. -/
theorem SameShape.mapSlots_eq (h : SameShape sizing f g) {t u : Tree} (ht : f.Holds t)
    (hu : g.Holds u) (hpage : u.page = t.page) :
    u.mapSlots (fun _ _ => .tombstone) = t.mapSlots fun _ _ => .tombstone := by
  induction t generalizing u with
  | leaf id es next =>
    have hnodes := h.sameButSlots ht.readPage (hpage ▸ hu.readPage)
    match u, hnodes with
    | .leaf id' es' next', hnodes =>
      have hid : id' = id := hnodes.id
      have hnext : next' = next := hnodes.next
      have hkeys : es'.map (·.1) = es.map (·.1) := hnodes.keys
      -- with empty slots the entries are known by their keys
      have hempty := congrArg (List.map fun k => (k, RowId.tombstone)) hkeys
      rw [List.map_map, List.map_map] at hempty
      rw [mapSlots_leaf, mapSlots_leaf, hid, hnext]
      exact congrArg (fun es => leaf id es next) hempty
    | .branch .., hnodes => cases hnodes.isLeaf
  | branch id keys children ih =>
    have hnodes := h.sameButSlots ht.readPage (hpage ▸ hu.readPage)
    match u, hnodes with
    | .leaf .., hnodes => cases hnodes.isLeaf
    | .branch id' keys' children', hnodes =>
      have hid : id' = id := hnodes.id
      have hkeys : keys' = keys := hnodes.keys
      have hchildren : children'.map page = children.map page := hnodes.children
      rw [mapSlots_branch, mapSlots_branch, hid, hkeys, map_mapSlots_eq hchildren]
      exact fun c hc d hd hsame =>
        ih c hc ((holds_branch_iff.1 ht).2 c hc) ((holds_branch_iff.1 hu).2 d hd) hsame

/-- **Pages of one shape read as the same node** if the files have the same entries. -/
theorem SameShape.node_eq (h : SameShape sizing f g) (hf : Tended Bare f L) (hg : Tended Bare g L)
    {p : PageId} {n m : Node} (hn : f.readPage p = .ok n) (hm : g.readPage p = .ok m) : m = n := by
  cases hf with
  | nothing hroot hpages =>
    -- no page is allocated yet
    have hp := isAllocated_of_readPage hn
    rw [Metadata.isAllocated_iff] at hp
    omega
  | @tree height t hcarries hentries hspare =>
    generalize hL : t.entries = L at hg
    cases hg with
    | nothing => exact absurd hL hentries
    | @tree height' u hcarries' hentries' hspare' =>
      have hpage : u.page = t.page := by
        rw [hcarries.page, hcarries'.page, root, root, h.record]
      obtain rfl : u = t :=
        eq_of_mapSlots_eq (h.mapSlots_eq hcarries.held hcarries'.held hpage) hL.symm
      by_cases hpt : p ∈ u.pages
      · obtain ⟨s, hs, rfl⟩ := List.mem_map.1 hpt
        obtain rfl := Except.ok.inj ((hcarries.held s hs).symm.trans hn)
        exact Except.ok.inj (hm.symm.trans (hcarries'.held s hs))
      · obtain ⟨n', hn', hbare⟩ := hspare p (isAllocated_of_readPage hn) hpt
        obtain rfl := Except.ok.inj (hn.symm.trans hn')
        exact (h.sameButSlots hn hm).eq_of_bare hbare

/-- **Files of one shape with the same entries are the same, byte for byte.** -/
theorem Canonical.image_eq (hf : Canonical sizing f) (hg : Canonical sizing g)
    (h : SameShape sizing f g) (hL : Tended Bare f L) (hL' : Tended Bare g L) :
    g.image = f.image := by
  have hbehind : ∀ i, f.pageCount ≤ i → (i ∈ g.image.blocks ↔ i ∈ f.image.blocks) ∧
      g.image.page i = f.image.page i := fun i hi => by
    rw [Std.ExtTreeMap.mem_iff_isSome_getElem?, Std.ExtTreeMap.mem_iff_isSome_getElem?,
      FileImage.page, FileImage.page, Std.ExtTreeMap.getD_eq_getD_getElem?,
      Std.ExtTreeMap.getD_eq_getD_getElem?, h.behind i hi]
    exact ⟨Iff.rfl, rfl⟩
  refine FileImage.eq_of_page_eq h.length (fun i => ?_) fun i _ => ?_
  · rcases Nat.lt_or_ge i f.pageCount with hi | hi
    · exact iff_of_true (hg.written i (by rwa [h.pageCount])) (hf.written i hi)
    · exact (hbehind i hi).1
  rcases Nat.lt_or_ge i f.pageCount with hlt | hge
  swap
  · exact (hbehind i hge).2
  rcases Nat.eq_zero_or_pos i with rfl | hpos
  · exact h.first
  · -- a counted page is the page of its node, unless the two are the same anyway
    have hmax := f.record.pages.toInt_lt
    have hcounted : f.pageCount = f.record.pages.toInt.toNat := rfl
    have hp := isAllocated_ofIndex hpos hlt
    obtain ⟨n, m, hn, hm, hid, hsame, hpages⟩ := h.pages _ hp
    have hnode := h.node_eq hL hL' (readPage_eq_ok_iff.2 ⟨hp, hn, hid⟩)
      (readPage_eq_ok_iff.2 ⟨by rwa [h.record], hm, hsame.id.trans hid⟩)
    rw [PageId.index_ofIndex (by omega)] at hpages
    rcases hpages with ⟨heq, -⟩ | ⟨hpage, hpage'⟩
    · exact heq.symm
    · rw [hpage, hpage', hnode]

end PageFile

/-! ## (5) Lists of entries -/

/-- **Slots cleared in a row** are cleared at once. -/
theorem RowId.cleared_cleared_of_mem_iff {targets targets' both : List RowId}
    (hboth : ∀ v, v ∈ both ↔ v ∈ targets ∨ v ∈ targets') (value : RowId) :
    (value.cleared targets).cleared targets' = value.cleared both := by
  simp only [cleared, List.contains_iff_mem, hboth]
  by_cases hfirst : value ∈ targets
  · simp only [if_pos hfirst, ite_self, if_pos (Or.inl hfirst)]
  · simp only [if_neg hfirst, or_iff_right hfirst]

/-- **Slots cleared in a row are counted once.** -/
theorem countP_cleared {targets targets' both : List RowId}
    (hboth : ∀ v, v ∈ both ↔ v ∈ targets ∨ v ∈ targets') (hlive : .tombstone ∉ targets')
    (L : List (Int32 × RowId)) :
    L.countP (fun e => targets.contains e.2)
        + (L.map fun e => (e.1, e.2.cleared targets)).countP (fun e => targets'.contains e.2)
      = L.countP fun e => both.contains e.2 := by
  induction L with
  | nil => rfl
  | cons e L ih =>
    rw [List.map_cons, List.countP_cons, List.countP_cons, List.countP_cons, ← ih]
    simp only [RowId.cleared, List.contains_iff_mem, hboth]
    by_cases hfirst : e.2 ∈ targets
    · simp only [if_pos hfirst, if_neg hlive, if_pos (Or.inl hfirst)]
      omega
    · simp only [if_neg hfirst, or_iff_right hfirst]
      omega

/-- **What is counted with one entry more.** -/
theorem countP_entriesWith (wanted : Int32 × RowId → Bool) (key : Int32) (value : RowId)
    (L : List (Int32 × RowId)) :
    (entriesWith key value L).countP wanted
      = L.countP wanted + if wanted (key, value) then 1 else 0 := by
  have hback : L.filter (fun e => !decide (e.1 ≤ key)) = L.filter fun e => key < e.1 := by
    refine List.filter_congr fun e _ => ?_
    rw [← decide_not]
    exact decide_eq_decide.2 Int32.not_le
  have hsplit := List.countP_eq_countP_filter_add L wanted fun e => decide (e.1 ≤ key)
  rw [hback] at hsplit
  rw [entriesWith, List.countP_append, List.countP_cons, hsplit, Nat.add_assoc]

namespace PageFile

open RowIndex.Action

variable {f g : PageFile} {sizing : Sizing} {L : List (Int32 × RowId)}

/-- The row identifiers to look for are those of the texts, without the empty slot. -/
theorem mem_targetsOf {texts : List String} {value : RowId} :
    value ∈ targetsOf texts ↔
      ¬ value.isTombstone ∧ ∃ text ∈ texts, RowId.ofText text = value := by
  rw [targetsOf, List.mem_filter, List.mem_map, and_comm, Bool.not_eq_true']
  exact and_congr_left fun _ => (Bool.not_eq_true _).symm ▸ Iff.rfl

theorem tombstone_not_mem_targetsOf (texts : List String) : .tombstone ∉ targetsOf texts := by
  rw [mem_targetsOf]
  exact fun h => h.1 (by decide)

/-! ## (6) Deletions and insertions in any order -/

namespace Canonical

/-- **Deletions in a row** answer and leave behind what the deletion of all texts does. -/
theorem deleteValues_deleteValues (h : Canonical sizing f) (hL : Tended Bare f L)
    {texts texts' both : List String} (hboth : ∀ text, text ∈ both ↔ text ∈ texts ∨ text ∈ texts') :
    ∃ count count' f₁ f₂ g, (PageFile.deleteValues texts).runOn f = (.ok count, f₁) ∧
      (PageFile.deleteValues texts').runOn f₁ = (.ok count', f₂) ∧
      (PageFile.deleteValues both).runOn f = (.ok (count + count'), g) ∧
      SameShape sizing f₂ g ∧ g.image = f₂.image := by
  have htargets : ∀ v, v ∈ targetsOf both ↔ v ∈ targetsOf texts ∨ v ∈ targetsOf texts' := by
    intro v
    simp only [mem_targetsOf, hboth, or_and_right, exists_or, and_or_left]
  obtain ⟨f₁, hrun₁, hL₁⟩ := hL.deleteValues texts
  obtain ⟨f₂, hrun₂, hL₂⟩ := hL₁.deleteValues texts'
  obtain ⟨g, hrun, hLg⟩ := hL.deleteValues both
  have h₁ := h.deleteValues texts
  have htwin₁ := h.twin.deleteValues texts
  rw [hrun₁] at h₁ htwin₁
  have h₂ := h₁.deleteValues texts'
  have htwin₂ := htwin₁.deleteValues texts'
  rw [hrun₂] at h₂ htwin₂
  have hg := h.deleteValues both
  have htwin := h.twin.deleteValues both
  rw [hrun] at hg htwin
  -- in the end the entries are the same
  rw [List.map_map] at hL₂
  simp only [Function.comp_def, RowId.cleared_cleared_of_mem_iff htargets] at hL₂
  rw [← countP_cleared htargets (tombstone_not_mem_targetsOf texts') L] at hrun
  have hshape := (htwin₂.symm.trans htwin).shape
  exact ⟨_, _, f₁, f₂, g, hrun₁, hrun₂, hrun, hshape, h₂.image_eq hg hshape hL₂ hLg⟩

/-- **An insertion and a deletion of other row identifiers** answer and leave behind the same in either
order. -/
theorem insert_deleteValues (h : Canonical sizing f) (hL : Tended Bare f L) (key : Int32)
    {text : String} {texts : List String} (hother : RowId.ofText text ∉ targetsOf texts) :
    ∃ result count f₁ f₂ g₁ g₂, (PageFile.insert key text).runOn f = (result, f₁) ∧
      (PageFile.deleteValues texts).runOn f₁ = (.ok count, f₂) ∧
      (PageFile.deleteValues texts).runOn f = (.ok count, g₁) ∧
      (PageFile.insert key text).runOn g₁ = (result, g₂) ∧
      SameShape sizing f₂ g₂ ∧ g₂.image = f₂.image := by
  obtain ⟨g₁, hdelete, hLg₁⟩ := hL.deleteValues texts
  have hg₁ := h.deleteValues texts
  have htwin := h.twin.deleteValues texts
  rw [hdelete] at hg₁ htwin
  rcases hrun : (PageFile.insert key text).runOn f with ⟨result, f₁⟩
  rcases hrun' : (PageFile.insert key text).runOn g₁ with ⟨result', g₂⟩
  have hpaired := Twins.insertValue key (RowId.ofText text) (RowId.ofText text) f g₁ htwin
  rw [← PageFile.insert, hrun, hrun'] at hpaired
  have hf₁ := h.insert key text
  have hg₂ := hg₁.insert key text
  rw [hrun] at hf₁
  rw [hrun'] at hg₂
  have htwin₁ := hpaired.files
  -- the entries behind the insertion, with nothing more to be cleared
  obtain ⟨hresult, L₁, hL₁, hLg₂, hcount⟩ : result' = result ∧ ∃ L₁, Tended Bare f₁ L₁ ∧
      Tended Bare g₂ (L₁.map fun e => (e.1, e.2.cleared (targetsOf texts))) ∧
      L₁.countP (fun e => (targetsOf texts).contains e.2)
        = L.countP fun e => (targetsOf texts).contains e.2 := by
    cases hpaired with
    | ok hanswer _ =>
      refine ⟨congrArg Except.ok hanswer.symm, _, hL.inserted_entriesWith hrun, ?_, ?_⟩
      · rw [entriesWith_map key _ (RowId.cleared (targetsOf texts)), RowId.cleared,
          if_neg (mt List.contains_iff_mem.1 hother)]
        exact hLg₁.inserted_entriesWith hrun'
      · rw [countP_entriesWith, if_neg (mt List.contains_iff_mem.1 hother), Nat.add_zero]
    | error _ =>
      exact ⟨rfl, L, hL.failed (fun p => bare_overChild p _) hrun,
        hLg₁.failed (fun p => bare_overChild p _) hrun', rfl⟩
  obtain ⟨f₂, hdelete₂, hLf₂⟩ := hL₁.deleteValues texts
  have hf₂ := hf₁.deleteValues texts
  have htwin₂ := hf₁.twin.deleteValues texts
  rw [hdelete₂] at hf₂ htwin₂
  rw [hcount] at hdelete₂
  have hshape := (htwin₂.symm.trans htwin₁).shape
  exact ⟨result, _, f₁, f₂, g₁, g₂, rfl, hdelete₂, hdelete, by rw [hrun', hresult], hshape,
    hf₂.image_eq hg₂ hshape hLf₂ hLg₂⟩

end Canonical

/-- **Deletions compose, and change places with insertions of other row identifiers**, down to the bytes
of the file. Take a new index after any run of calls, each of which may have succeeded or not. Deleting
some texts and then others leaves the file that deleting all of them at once leaves, and the two counts
add up. An insertion, whether it succeeds or not, and a deletion of texts that are stored in other slots
have the same answers in either order, and leave the same file, record and capacity. -/
theorem deletions_compose_and_commute {host : Host} {path : String} {calls : List Call}
    (hcreate : create host path sizing = .ok f) (hrun : f.afterCalls calls = g) :
    (∀ texts texts' both, (∀ text, text ∈ both ↔ text ∈ texts ∨ text ∈ texts') →
      ∃ count count' g₁ g₂ h, (deleteValues texts).runOn g = (.ok count, g₁) ∧
        (deleteValues texts').runOn g₁ = (.ok count', g₂) ∧
        (deleteValues both).runOn g = (.ok (count + count'), h) ∧
        h.image = g₂.image ∧ h.record = g₂.record) ∧
    ∀ key text texts,
      (∀ a ∈ texts, ¬ (RowId.ofText a).isTombstone → RowId.ofText text ≠ RowId.ofText a) →
      ∃ result count g₁ g₂ h₁ h₂, (insert key text).runOn g = (result, g₁) ∧
        (deleteValues texts).runOn g₁ = (.ok count, g₂) ∧
        (deleteValues texts).runOn g = (.ok count, h₁) ∧
        (insert key text).runOn h₁ = (result, h₂) ∧
        h₂.image = g₂.image ∧ h₂.record = g₂.record ∧ h₂.capacity = g₂.capacity := by
  have hempty : Tended Bare f [] := .create hcreate
  obtain ⟨L, hL, -⟩ := hempty.afterCalls (inUse_create hcreate) (by simp) calls
  obtain ⟨sizing', hcanonical⟩ := (canonical_create hcreate).afterCalls calls
  rw [hrun] at hL hcanonical
  refine ⟨fun texts texts' both hboth => ?_, fun key text texts hother => ?_⟩
  · obtain ⟨count, count', g₁, g₂, h, hfirst, hsecond, hall, hshape, himage⟩ :=
      hcanonical.deleteValues_deleteValues hL hboth
    exact ⟨count, count', g₁, g₂, h, hfirst, hsecond, hall, himage, hshape.record⟩
  · have hnot : RowId.ofText text ∉ targetsOf texts := by
      rw [mem_targetsOf]
      rintro ⟨hlive, a, ha, heq⟩
      exact hother a ha (by rwa [heq]) heq.symm
    obtain ⟨result, count, g₁, g₂, h₁, h₂, hinsert, hdelete, hdelete', hinsert', hshape, himage⟩ :=
      hcanonical.insert_deleteValues hL key hnot
    exact ⟨result, count, g₁, g₂, h₁, h₂, hinsert, hdelete, hdelete', hinsert', himage,
      hshape.record, hshape.capacity⟩

theorem deletions_compose_and_commute_newFile :
    newFile.afterCalls [.insert 7 "seven"] = ((insert 7 "seven").runOn newFile).2 ∧
      ∃ result count g₁ g₂ h₁ h₂,
        (insert 7 "eight").runOn ((insert 7 "seven").runOn newFile).2 = (result, g₁) ∧
        (deleteValues ["seven"]).runOn g₁ = (.ok count, g₂) ∧
        (deleteValues ["seven"]).runOn ((insert 7 "seven").runOn newFile).2 = (.ok count, h₁) ∧
        (insert 7 "eight").runOn h₁ = (result, h₂) ∧ h₂.image = g₂.image := by
  have hrun : newFile.afterCalls [.insert 7 "seven"] = ((insert 7 "seven").runOn newFile).2 := rfl
  have hother : ∀ a ∈ ["seven"], ¬ (RowId.ofText a).isTombstone →
      RowId.ofText "eight" ≠ RowId.ofText a := by
    intro a ha _ heq
    rw [List.mem_singleton.1 ha] at heq
    have height : (RowId.ofText "eight").text = "eight" := RowId.text_ofText "eight"
    have hseven : (RowId.ofText "seven").text = "seven" := RowId.text_ofText "seven"
    rw [heq, hseven] at height
    exact absurd height (by decide)
  obtain ⟨-, hcommute⟩ := deletions_compose_and_commute create_newFile hrun
  obtain ⟨result, count, g₁, g₂, h₁, h₂, hinsert, hdelete, hdelete', hinsert', himage, -⟩ :=
    hcommute 7 "eight" ["seven"] hother
  exact ⟨hrun, result, count, g₁, g₂, h₁, h₂, hinsert, hdelete, hdelete', hinsert', himage⟩

end PageFile

end RowIndex
