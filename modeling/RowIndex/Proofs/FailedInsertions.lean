import RowIndex.Proofs.PageStore

/-! # Insertions that fail

An insertion changes pages level by level and may find no room at every level. Whatever was split by
then is a tree with the same entries, and no page is lost but the one for a new root.

* **`Gained.mem_pages`** — a tree that has gained nodes has all pages that were allocated meanwhile.
* **`PageFile.Spared`** — what a failed insertion leaves of a file's pages.
* **`PageFile.Failed`** — what a failed insertion leaves of a file; `failed_of_insertValue`.
* **`contains_eq_ok_iff`** — what a search for a row identifier answers when all pages can be read.
* **`failed_insertion_loses_nothing`** — the audit accepts the file, and all reads are as before. -/

namespace RowIndex

namespace PageFile

open RowIndex.Tree

variable {f g : PageFile} {t t' : Tree}

/-! ## (1) The pages of a tree that has gained nodes -/

/-- **A tree that has gained nodes has all pages that were allocated meanwhile.** There are as many new
nodes as new pages. -/
theorem Gained.mem_pages (h : Gained f g t t') {p : PageId} (hg : g.record.isAllocated p)
    (hf : ¬ f.record.isAllocated p) : p ∈ t'.pages := by
  obtain ⟨new, hperm, hnodup, hfresh, hcount⟩ := h.pages
  refine hperm.mem_iff.2 (List.mem_append_left _ ?_)
  by_contra hp
  -- otherwise there is one page more than were counted
  have hmore : (p :: new).Nodup := List.nodup_cons.2 ⟨hp, hnodup⟩
  have hnew : ∀ q ∈ p :: new, g.record.isAllocated q ∧ ¬ f.record.isAllocated q :=
    List.forall_mem_cons.2 ⟨⟨hg, hf⟩, fun q hq =>
      ⟨h.held.isAllocated (hperm.mem_iff.2 (List.mem_append_left _ hq)), hfresh q hq⟩⟩
  have hbehind : ∀ q ∈ p :: new, max 1 f.pageCount ≤ q.index := by
    intro q hq
    obtain ⟨ha, hnot⟩ := hnew q hq
    rw [Metadata.isAllocated_iff] at ha hnot
    rw [pageCount, Metadata.pageCount, PageId.index]
    omega
  have hlength := length_le_of_nodup_from hmore (fun q hq => (hnew q hq).1) hbehind
  rw [List.length_cons, pageCount, pageCount, Metadata.pageCount, Metadata.pageCount, hcount]
    at hlength
  omega

/-- **What a failed insertion leaves of a file's pages**, and of the tree on them. -/
structure Spared (f g : PageFile) (t t' : Tree) : Prop where
  /-- The tree has the same entries. -/
  entries : t'.entries = t.entries
  /-- Its nodes are still among the nodes. -/
  kept : ∀ p ∈ t.pages, p ∈ t'.pages
  /-- The other pages still read the same, and are none of the nodes. -/
  outside : ∀ p, f.record.isAllocated p → p ∉ t.pages → p ∉ t'.pages ∧ g.readPage p = f.readPage p
  /-- A page that was allocated meanwhile holds a node, or is the one for a new root, and fresh. -/
  fresh : ∀ p, g.record.isAllocated p → ¬ f.record.isAllocated p →
    p ∈ t'.pages ∨ p = f.nextPage ∧ g.readPage p = .ok (Node.overChild p .metadata)

/-- A tree that has gained nodes by splits. -/
theorem Gained.spared (h : Gained f g t t') (hentries : t'.entries = t.entries) :
    Spared f g t t' := by
  obtain ⟨new, hperm, -, hfresh, -⟩ := h.pages
  refine ⟨hentries, fun p hp => hperm.mem_iff.2 (List.mem_append_right _ hp), fun p hp hpt => ?_,
    fun p hg hf => Or.inl (h.mem_pages hg hf)⟩
  refine ⟨fun hpt' => ?_, h.frame p hp hpt⟩
  rcases List.mem_append.1 (hperm.mem_iff.1 hpt') with hnew | hold
  · exact hfresh p hnew hp
  · exact hpt hold

/-- A tree whose root was to be split when the page for the new one was there already. -/
theorem spared_of_halfway {failure : Failure} {k : PageFile} (hheld : f.Holds t)
    (hallocate : allocate.runOn f = (.ok f.nextPage, g)) (hallocated : Allocated f g)
    (hrefused : Refused g failure k) : Spared f k t t where
  entries := rfl
  kept _ hp := hp
  outside p hp hpt := ⟨hpt, (hrefused.read p).trans (hallocated.read p hp)⟩
  fresh p hk hf := by
    have hone := Metadata.one_le_pages_of_isAllocated (isAllocated_of_readPage hheld.readPage)
    have hself := readPage_of_allocate hone hallocate
    have hcount := hallocated.toInt_pages
    rw [hrefused.record] at hk
    -- only one page was allocated
    have hp : p = f.nextPage := by
      rw [Metadata.isAllocated_iff] at hk hf
      exact congrArg PageId.mk (Int32.toInt_inj.1 (by omega))
    refine Or.inr ⟨hp, ?_⟩
    rw [hrefused.read, hp, hself]

/-! ## (2) The file after a failed insertion -/

/-- **What a failed insertion leaves of a file**: the file as it was, or one that carries a tree with the
same entries. -/
inductive Failed (f g : PageFile) : Prop
  /-- There was no tree, and there is none. -/
  | nothing : ¬ f.root.isValid → SamePages f g → Failed f g
  /-- There was a tree, and it was spared. -/
  | tree {height height' : Nat} {t t' : Tree} :
      f.Carries height t → g.Carries height' t' → Spared f g t t' → Failed f g

/-- **A failed insertion found no room for another page** and spared the tree. -/
theorem Carries.failed {height : Nat} (h : f.Carries height t) {key : Int32} {value : RowId}
    {failure : Failure} (hrun : (insertValue key value).runOn f = (.error failure, g)) :
    g.NoRoom failure ∧ Failed f g := by
  have hattempt := h.attempt key value
  rw [hrun] at hattempt
  cases hattempt with
  | refused hrefused =>
    have hgrown := Grown.of_refused h.held hrefused
    exact ⟨hrefused.noRoom,
      .tree h (h.congr hrefused.record hrefused.read) (hgrown.gained.spared rfl)⟩
  | halfway hallocate hallocated hrefused =>
    exact ⟨hrefused.noRoom, .tree h ((h.allocated hallocated).congr hrefused.record hrefused.read)
      (spared_of_halfway h.held hallocate hallocated hrefused)⟩
  | below hk hraised hgained hbelow =>
    cases hbelow with
    | refused hnoroom hsplits hgrown =>
      have hcarries := hk.of_grown hgrown hsplits.page (hsplits.ordered hk.ordered)
        fun stop hlinked => hsplits.linked hlinked
      exact ⟨hnoroom, .tree h hcarries
        ((hgained.trans hgrown.gained).spared (hsplits.entries.trans hraised.entries))⟩

/-- The same, in every file that an audit accepts. -/
theorem failed_of_insertValue {L : List (Int32 × RowId)} (h : f.Lists L)
    (hpages : 1 ≤ f.record.pages.toInt) {key : Int32} {value : RowId} {failure : Failure}
    (hrun : (insertValue key value).runOn f = (.error failure, g)) :
    g.NoRoom failure ∧ Failed f g := by
  cases h with
  | nothing hroot =>
    rcases insertValue_unrooted_cases hroot key value with
      ⟨failure', g', hrun', hrefused⟩ | ⟨g', hrun', -⟩ | ⟨hnone, -⟩
    · rw [hrun] at hrun'
      cases hrun'
      exact ⟨hrefused.noRoom, .nothing hroot ⟨hrefused.record, hrefused.read⟩⟩
    · rw [hrun] at hrun'
      cases hrun'
    · exact absurd hpages hnone
  | tree hcarries => exact hcarries.failed hrun

/-! ## (3) Searches for a row identifier -/

/-- **Every allocated page can be read.** -/
def Readable (f : PageFile) : Prop :=
  ∀ p, f.record.isAllocated p → ∃ n, f.readPage p = .ok n

/-- **A page holds a slot.** -/
def SlotOn (f : PageFile) (value : RowId) (p : PageId) : Prop :=
  ∃ n, f.readPage p = .ok n ∧ value ∈ n.values

/-- **Some page holds a slot.** -/
def HoldsSlot (f : PageFile) (value : RowId) : Prop :=
  ∃ p, f.SlotOn value p

/-- A scan over pages that can be read finds a slot just if one of them holds it. -/
theorem containsFrom_eq_ok_iff {value : RowId} {found : Bool} {count i : Nat}
    (hread : ∀ j, i ≤ j → j < i + count → ∃ n, f.readPage (PageId.ofIndex j) = .ok n) :
    f.containsFrom value count i = .ok found ↔
      (found = true ↔ ∃ j, i ≤ j ∧ j < i + count ∧ f.SlotOn value (PageId.ofIndex j)) := by
  induction count generalizing i with
  | zero =>
    have hnone : ¬ ∃ j, i ≤ j ∧ j < i + 0 ∧ f.SlotOn value (PageId.ofIndex j) := by
      rintro ⟨j, hle, hlt, -⟩
      omega
    rw [containsFrom, iff_false_right hnone, Bool.not_eq_true, Except.ok.injEq, eq_comm]
  | succ count ih =>
    obtain ⟨node, hnode⟩ := hread i (Nat.le_refl i) (by omega)
    rw [containsFrom, hnode]
    change (if node.values.contains value then Except.ok true
      else f.containsFrom value count (i + 1)) = _ ↔ _
    by_cases hvalue : value ∈ node.values
    · have hhere : ∃ j, i ≤ j ∧ j < i + (count + 1) ∧ f.SlotOn value (PageId.ofIndex j) :=
        ⟨i, Nat.le_refl i, by omega, node, hnode, hvalue⟩
      rw [if_pos (List.contains_iff_mem.2 hvalue), iff_true_right hhere, Except.ok.injEq, eq_comm]
    · -- the page at `i` does not hold it, so only later pages count
      have hlater : (∃ j, i ≤ j ∧ j < i + (count + 1) ∧ f.SlotOn value (PageId.ofIndex j)) ↔
          ∃ j, i + 1 ≤ j ∧ j < i + 1 + count ∧ f.SlotOn value (PageId.ofIndex j) := by
        constructor
        · rintro ⟨j, hle, hlt, n, hn, hmem⟩
          have hne : j ≠ i := by
            rintro rfl
            cases hnode.symm.trans hn
            exact hvalue hmem
          exact ⟨j, by omega, by omega, n, hn, hmem⟩
        · rintro ⟨j, hle, hlt, hslot⟩
          exact ⟨j, by omega, by omega, hslot⟩
      rw [if_neg fun hcontains => hvalue (List.contains_iff_mem.1 hcontains), hlater]
      exact ih fun j hle hlt => hread j (by omega) (by omega)

/-- A slot that is held is found at the place of a page. -/
theorem holdsSlot_iff (f : PageFile) (value : RowId) :
    f.HoldsSlot value ↔
      ∃ j, 1 ≤ j ∧ j < 1 + (f.pageCount - 1) ∧ f.SlotOn value (PageId.ofIndex j) := by
  constructor
  · rintro ⟨p, n, hn, hmem⟩
    have ha := isAllocated_of_readPage hn
    have hplace := Metadata.index_of_isAllocated ha
    have hlast : p.index < f.pageCount := hplace.2
    refine ⟨p.index, hplace.1, by omega, n, ?_, hmem⟩
    rw [PageId.ofIndex_index (Metadata.isValid_of_isAllocated ha), hn]
  · rintro ⟨j, -, -, hslot⟩
    exact ⟨_, hslot⟩

/-- **What a search for a row identifier answers** when all pages can be read. -/
theorem contains_eq_ok_iff (hread : f.Readable) {text : String} {found : Bool} :
    f.contains text = .ok found ↔
      (found = true ↔ ¬ (RowId.ofText text).isTombstone ∧ f.HoldsSlot (RowId.ofText text)) := by
  rw [contains]
  by_cases htombstone : (RowId.ofText text).isTombstone
  · have hnone : ¬ (¬ (RowId.ofText text).isTombstone ∧ f.HoldsSlot (RowId.ofText text)) :=
      fun h => h.1 htombstone
    rw [if_pos htombstone, iff_false_right hnone, Bool.not_eq_true, Except.ok.injEq, eq_comm]
  · rw [if_neg htombstone, and_iff_right htombstone, holdsSlot_iff]
    refine containsFrom_eq_ok_iff fun j hle hlt => hread _ ?_
    have hcount : f.pageCount = f.record.pages.toInt.toNat := rfl
    have hmax := f.record.pages.toInt_lt
    rw [Metadata.isAllocated_iff]
    have hindex : (PageId.ofIndex j).val.toInt = j := Int32.toInt_ofNat_of_lt (by omega)
    omega

/-- Such a search always answers. -/
theorem exists_contains (hread : f.Readable) (text : String) :
    ∃ found, f.contains text = .ok found := by
  obtain ⟨found, hfound⟩ : ∃ found : Bool, found = true ↔
      ¬ (RowId.ofText text).isTombstone ∧ f.HoldsSlot (RowId.ofText text) := by
    classical exact ⟨decide _, decide_eq_true_iff⟩
  exact ⟨found, (contains_eq_ok_iff hread).2 hfound⟩

/-- Two files whose pages can be read and hold the same slots answer the same. -/
theorem contains_congr (hf : f.Readable) (hg : g.Readable)
    (hslots : ∀ value, g.HoldsSlot value ↔ f.HoldsSlot value) (text : String) :
    g.contains text = f.contains text := by
  obtain ⟨found, hfound⟩ := exists_contains hf text
  rw [hfound, contains_eq_ok_iff hg, hslots]
  exact (contains_eq_ok_iff hf).1 hfound

/-- **The slots that pages hold** are those of the entries and those outside the tree. -/
theorem Holds.holdsSlot_iff (h : f.Holds t) (value : RowId) :
    f.HoldsSlot value ↔ value ∈ t.entries.map (·.2) ∨ ∃ p, p ∉ t.pages ∧ f.SlotOn value p := by
  rw [slots_eq_flatMap, List.mem_flatMap]
  constructor
  · rintro ⟨p, n, hn, hmem⟩
    by_cases hp : p ∈ t.pages
    · obtain ⟨s, hs, rfl⟩ := List.mem_map.1 hp
      cases hn.symm.trans (h s hs)
      exact Or.inl ⟨s, hs, hmem⟩
    · exact Or.inr ⟨p, hp, n, hn, hmem⟩
  · rintro (⟨s, hs, hmem⟩ | ⟨p, -, hslot⟩)
    · exact ⟨s.page, s.node, h s hs, hmem⟩
    · exact ⟨p, hslot⟩

namespace Spared

/-- The pages that are no nodes hold the same slots as before: a page for a new root holds none. -/
theorem outside_iff (h : Spared f g t t') (value : RowId) :
    (∃ p, p ∉ t'.pages ∧ g.SlotOn value p) ↔ ∃ p, p ∉ t.pages ∧ f.SlotOn value p := by
  constructor
  · rintro ⟨p, hp, n, hn, hmem⟩
    have hpt : p ∉ t.pages := fun hnode => hp (h.kept p hnode)
    by_cases hf : f.record.isAllocated p
    · exact ⟨p, hpt, n, (h.outside p hf hpt).2.symm.trans hn, hmem⟩
    · rcases h.fresh p (isAllocated_of_readPage hn) hf with hnode | ⟨-, hfresh⟩
      · exact absurd hnode hp
      · cases hn.symm.trans hfresh
        cases hmem
  · rintro ⟨p, hp, n, hn, hmem⟩
    obtain ⟨hpt', hread⟩ := h.outside p (isAllocated_of_readPage hn) hp
    exact ⟨p, hpt', n, hread.trans hn, hmem⟩

/-- If all pages could be read, they all can. -/
theorem readable (h : Spared f g t t') (hheld : g.Holds t') (hread : f.Readable) : g.Readable := by
  intro p hg
  by_cases hp : p ∈ t'.pages
  · obtain ⟨s, hs, rfl⟩ := List.mem_map.1 hp
    exact ⟨_, hheld s hs⟩
  · by_cases hf : f.record.isAllocated p
    · rw [(h.outside p hf fun hpt => hp (h.kept p hpt)).2]
      exact hread p hf
    · rcases h.fresh p hg hf with hnode | ⟨-, hfresh⟩
      · exact absurd hnode hp
      · exact ⟨_, hfresh⟩

end Spared

/-! ## (4) Reads after a failed insertion -/

/-- **Whether a page belongs to a node of the tree.** -/
def InTree (f : PageFile) (p : PageId) : Prop :=
  ∃ t, f.tree = .ok (some t) ∧ p ∈ t.pages

theorem Carries.inTree_iff {height : Nat} (h : f.Carries height t) (p : PageId) :
    f.InTree p ↔ p ∈ t.pages := by
  rw [InTree, h.tree_eq]
  constructor
  · rintro ⟨u, hu, hp⟩
    cases hu
    exact hp
  · exact fun hp => ⟨t, rfl, hp⟩

theorem not_inTree_of_not_isValid (hroot : ¬ f.root.isValid) (p : PageId) : ¬ f.InTree p := by
  rintro ⟨t, ht, -⟩
  rw [tree, if_neg hroot] at ht
  cases ht

namespace Failed

/-- The audit accepts the file before and after. -/
theorem lists (h : Failed f g) : ∃ L, f.Lists L ∧ g.Lists L := by
  cases h with
  | nothing hroot hsame => exact ⟨[], .nothing hroot, .nothing (by rwa [hsame.root])⟩
  | @tree _ _ t t' hf hg hspared => exact ⟨t.entries, .tree hf, hspared.entries ▸ .tree hg⟩

theorem search (h : Failed f g) (key : Int32) : g.search key = f.search key := by
  obtain ⟨L, hf, hg⟩ := h.lists
  rw [hf.search_eq, hg.search_eq]

theorem range (h : Failed f g) (low high : Int32) : g.range low high = f.range low high := by
  cases h with
  | nothing _ hsame => exact hsame.range low high
  | tree hf hg hspared => rw [hf.range_eq, hg.range_eq, hspared.entries]

/-- A search for a row identifier answers as before, if all pages could be read. -/
theorem contains (h : Failed f g) (hread : f.Readable) (text : String) :
    g.contains text = f.contains text := by
  cases h with
  | nothing _ hsame => exact hsame.contains text
  | tree hf hg hspared =>
    refine contains_congr hread (hspared.readable hg.held hread) (fun value => ?_) text
    rw [hf.held.holdsSlot_iff, hg.held.holdsSlot_iff, hspared.entries, hspared.outside_iff]

/-- **The pages of before** are nodes of the tree just if they were. -/
theorem inTree_iff (h : Failed f g) {p : PageId} (hp : f.record.isAllocated p) :
    g.InTree p ↔ f.InTree p := by
  cases h with
  | nothing hroot hsame =>
    exact iff_of_false (not_inTree_of_not_isValid (by rwa [hsame.root]) p)
      (not_inTree_of_not_isValid hroot p)
  | tree hf hg hspared =>
    rw [hf.inTree_iff, hg.inTree_iff]
    exact ⟨fun hmem => by_contra fun hnot => (hspared.outside p hp hnot).1 hmem, hspared.kept p⟩

/-- **One page at most** was added that is no node of the tree. -/
theorem eq_nextPage (h : Failed f g) {p : PageId} (hg : g.record.isAllocated p)
    (hf : ¬ f.record.isAllocated p) (hnode : ¬ g.InTree p) : p = f.nextPage := by
  cases h with
  | nothing _ hsame => exact absurd (by rwa [hsame.record] at hg) hf
  | tree _ hcarries hspared =>
    rw [hcarries.inTree_iff] at hnode
    rcases hspared.fresh p hg hf with hmem | ⟨hp, -⟩
    · exact absurd hmem hnode
    · exact hp

end Failed

/-- **A failed insertion loses nothing.** It fails only because there is no room for another page.
The audit still accepts the file, the leaf chain gives the same pairs, all reads answer as before, and
one page at most was added that is no node of the tree. -/
theorem failed_insertion_loses_nothing {s : TreeStats} (hverify : f.verify = .ok s)
    (hpages : 1 ≤ f.pageCount) {key : Int32} {text : String} {failure : Failure}
    (hrun : (insert key text).runOn f = (.error failure, g)) :
    g.NoRoom failure ∧ (∃ s', g.verify = .ok s') ∧
    (∃ L, f.chain = .ok L ∧ g.chain = .ok L) ∧ g.entries = f.entries ∧
    (∀ key, g.search key = f.search key) ∧ (∀ low high, g.range low high = f.range low high) ∧
    (f.Readable → ∀ text, g.contains text = f.contains text) ∧
    (∀ p, f.record.isAllocated p → (g.InTree p ↔ f.InTree p)) ∧
    ∀ p, g.record.isAllocated p → ¬ f.record.isAllocated p → ¬ g.InTree p → p = f.nextPage := by
  obtain ⟨_, hlists⟩ := exists_lists_iff.2 ⟨s, hverify⟩
  have hcount : 1 ≤ f.record.pages.toInt := by
    rw [pageCount, Metadata.pageCount] at hpages
    omega
  obtain ⟨hnoroom, hfailed⟩ := failed_of_insertValue hlists hcount hrun
  obtain ⟨L, hf, hg⟩ := hfailed.lists
  refine ⟨hnoroom, exists_lists_iff.1 ⟨L, hg⟩, ⟨L, hf.chain_eq, hg.chain_eq⟩, ?_, hfailed.search,
    hfailed.range, hfailed.contains, fun p hp => hfailed.inTree_iff hp,
    fun p hg hf hnode => hfailed.eq_nextPage hg hf hnode⟩
  rw [entries, entries, hf.chain_eq, hg.chain_eq]

/-- **An insertion fails halfway** where there is room for a new root but not for a sibling. -/
theorem runOn_insertValue_of_noSibling {k : PageFile} {node : Node} {id : PageId} {key : Int32}
    {value : RowId} {failure : Failure} (hroot : f.root.isValid)
    (hread : f.readPage f.root = .ok node) (hfull : node.isFull)
    (hallocate : allocate.runOn f = (.ok id, g)) (hsibling : allocate.runOn g = (.error failure, k)) :
    (insertValue key value).runOn f = (.error failure, k) := by
  rw [insertValue, Action.runOn_bind, Action.runOn_get]
  simp only [hroot, if_true]
  rw [Action.runOn_bind, Action.runOn_ask, hread]
  simp only [hfull, if_true]
  rw [Action.runOn_bind, hallocate]
  simp only [Action.runOn_bind, splitChild, hsibling]

/-- The entries of a leaf without room. -/
def fullEntries : List (Int32 × RowId) :=
  List.replicate Layout.maxKeys (7, RowId.ofText "seven")

/-- A system on which no file gets longer than three pages. -/
def threePages : Host :=
  { Host.usual with sets := fun length => length ≤ 12288 }

/-- A file whose root is a full leaf, with room for one page more, that cannot become longer. -/
def fullLeafFile : PageFile :=
  withNode ⟨"full", FileImage.empty.resize 12288, 12288, ⟨⟨1⟩, 2⟩, ⟨12288, 4096⟩, threePages, true⟩
    (Tree.leaf ⟨1⟩ fullEntries .none).node

theorem carries_fullLeafFile : fullLeafFile.Carries 0 (.leaf ⟨1⟩ fullEntries .none) where
  page := rfl
  held := by
    rw [holds_leaf_iff, fullLeafFile, readPage_withNode (by decide) (by decide)]
    rfl
  ordered := by
    rw [ordered_leaf_iff, fullEntries, List.map_replicate]
    refine ⟨List.pairwise_replicate.2 (Or.inr (Int32.le_refl 7)), fun key hkey => ?_⟩
    exact within_none key
  linked := ⟨.none, by decide, rfl, trivial⟩

/-- The page for the new root is allocated, and the one for its sibling is not. -/
theorem insert_fullLeafFile :
    (insert 7 "eight").runOn fullLeafFile = (.error (.error .io), fullLeafFile.withFreshPage) := by
  have hallocate : allocate.runOn fullLeafFile = (.ok ⟨2⟩, fullLeafFile.withFreshPage) :=
    runOn_allocate_of_room (by decide) (by decide)
  have hsibling : allocate.runOn fullLeafFile.withFreshPage =
      (.error (.error .io), fullLeafFile.withFreshPage) := by
    rw [runOn_allocate, withRoom, if_neg (by decide), if_neg (by decide), if_neg (by decide)]
  exact runOn_insertValue_of_noSibling (by decide) carries_fullLeafFile.held.readPage (by decide)
    hallocate hsibling

theorem failed_insertion_fullLeafFile :
    (∃ s, fullLeafFile.verify = .ok s) ∧
      (insert 7 "eight").runOn fullLeafFile = (.error (.error .io), fullLeafFile.withFreshPage) ∧
      (∃ s, fullLeafFile.withFreshPage.verify = .ok s) ∧
      fullLeafFile.withFreshPage.chain = .ok fullEntries ∧
      fullLeafFile.withFreshPage.InTree ⟨1⟩ := by
  have hverify : fullLeafFile.verify = .ok _ :=
    verify_eq_ok_iff.2 (Or.inr ⟨0, _, carries_fullLeafFile, rfl⟩)
  obtain ⟨-, hverify', ⟨L, hf, hg⟩, -, -, -, -, hnodes, -⟩ :=
    failed_insertion_loses_nothing hverify (by decide) insert_fullLeafFile
  rw [carries_fullLeafFile.chain_eq] at hf
  obtain rfl := Except.ok.inj hf
  refine ⟨⟨_, hverify⟩, insert_fullLeafFile, hverify', hg, (hnodes ⟨1⟩ (by decide)).2 ?_⟩
  exact (carries_fullLeafFile.inTree_iff ⟨1⟩).2 List.mem_cons_self

end PageFile

end RowIndex
