import RowIndex.Proofs.Histories
import RowIndex.Proofs.FailedInsertions

/-! # Who owns a page

Every allocated page of an index belongs to one node of the tree, at one place in it. A node that an
insertion adds brings the page it was allocated, and no call takes a node away.

* **`Tree.along`**, `PageFile.pageAlong` — the subtree, and the page, at the end of a path of places.
* **`existsUnique_pageAlong`** — one path only leads from the root to a page of the tree.
* **`PageFile.Tended`** — the tree has all allocated pages, apart from spare ones.
* **`Tended.succeeded`**, `Tended.afterAll` — what one call keeps, and a run.
* **`no_page_lost_or_shared`** — every page is one node's, and the statistics are exact. -/

namespace RowIndex

namespace Tree

/-! ## (1) Paths from the root -/

/-- **The subtree at the end of a path**: at every step a child is taken, by its place. -/
def along : List Nat → Tree → Option Tree
  | [], t => some t
  | _ :: _, .leaf .. => none
  | i :: path, .branch _ _ children => children[i]?.bind (along path)

@[simp] theorem along_nil (t : Tree) : along [] t = some t := by
  rw [along]

@[simp] theorem along_leaf (i : Nat) (path : List Nat) (id : PageId) (es : List (Int32 × RowId))
    (next : PageId) : along (i :: path) (.leaf id es next) = none := by
  rw [along]

@[simp] theorem along_branch (i : Nat) (path : List Nat) (id : PageId) (keys : List Int32)
    (children : List Tree) :
    along (i :: path) (.branch id keys children) = children[i]?.bind (along path) := by
  rw [along]

/-- What a first step and the rest of the path lead to. -/
theorem along_branch_eq_some_iff {i : Nat} {path : List Nat} {id : PageId} {keys : List Int32}
    {children : List Tree} {s : Tree} :
    along (i :: path) (.branch id keys children) = some s ↔
      ∃ c, children[i]? = some c ∧ along path c = some s := by
  rw [along_branch, Option.bind_eq_some_iff]

/-- A path leads to a subtree. -/
theorem mem_subtrees_of_along {path : List Nat} {s t : Tree} (h : along path t = some s) :
    s ∈ t.subtrees := by
  induction t generalizing path with
  | leaf id es next =>
    cases path with
    | nil => rw [← Option.some.inj ((along_nil _).symm.trans h)]; exact self_mem_subtrees _
    | cons i path => rw [along_leaf] at h; cases h
  | branch id keys children ih =>
    cases path with
    | nil => rw [← Option.some.inj ((along_nil _).symm.trans h)]; exact self_mem_subtrees _
    | cons i path =>
      obtain ⟨c, hc, hs⟩ := along_branch_eq_some_iff.1 h
      have hmem := List.mem_of_getElem? hc
      rw [subtrees_branch]
      exact List.mem_cons_of_mem _ (List.mem_flatMap.2 ⟨c, hmem, ih c hmem hs⟩)

/-- **To every subtree there is a path.** -/
theorem exists_along {s t : Tree} (h : s ∈ t.subtrees) : ∃ path, along path t = some s := by
  induction t with
  | leaf id es next =>
    rw [subtrees_leaf, List.mem_singleton] at h
    exact ⟨[], by rw [along_nil, h]⟩
  | branch id keys children ih =>
    rw [subtrees_branch, List.mem_cons] at h
    rcases h with rfl | h
    · exact ⟨[], along_nil _⟩
    · obtain ⟨c, hc, hs⟩ := List.mem_flatMap.1 h
      obtain ⟨i, hi⟩ := List.getElem?_of_mem hc
      obtain ⟨path, hpath⟩ := ih c hc hs
      exact ⟨i :: path, along_branch_eq_some_iff.2 ⟨c, hi, hpath⟩⟩

/-- The page at the end of a path is one of the tree's. -/
theorem page_mem_pages_of_along {path : List Nat} {s t : Tree} (h : along path t = some s) :
    s.page ∈ t.pages :=
  List.mem_map.2 ⟨s, mem_subtrees_of_along h, rfl⟩

/-- A path with a step does not lead back to the page at the top. -/
theorem page_ne_of_along_cons {i : Nat} {path : List Nat} {s t : Tree} (hnodup : t.pages.Nodup)
    (h : along (i :: path) t = some s) : s.page ≠ t.page := by
  cases t with
  | leaf id es next => rw [along_leaf] at h; cases h
  | branch id keys children =>
    obtain ⟨c, hc, hs⟩ := along_branch_eq_some_iff.1 h
    rw [pages_branch, List.nodup_cons] at hnodup
    rintro rfl
    exact hnodup.1 (List.mem_flatMap.2 ⟨c, List.mem_of_getElem? hc, page_mem_pages_of_along hs⟩)

/-- **Where no page is used twice, different paths lead to different pages.** -/
theorem along_inj {path path' : List Nat} {s s' t : Tree} (hnodup : t.pages.Nodup)
    (h : along path t = some s) (h' : along path' t = some s') (hpage : s.page = s'.page) :
    path = path' := by
  induction path generalizing path' t with
  | nil =>
    cases path' with
    | nil => rfl
    | cons j path' =>
      obtain rfl := Option.some.inj ((along_nil t).symm.trans h)
      exact absurd hpage.symm (page_ne_of_along_cons hnodup h')
  | cons i path ih =>
    cases path' with
    | nil =>
      obtain rfl := Option.some.inj ((along_nil t).symm.trans h')
      exact absurd hpage (page_ne_of_along_cons hnodup h)
    | cons j path' =>
      cases t with
      | leaf id es next => rw [along_leaf] at h; cases h
      | branch id keys children =>
        obtain ⟨c, hc, hs⟩ := along_branch_eq_some_iff.1 h
        obtain ⟨c', hc', hs'⟩ := along_branch_eq_some_iff.1 h'
        obtain ⟨hi, rfl⟩ := List.getElem?_eq_some_iff.1 hc
        obtain ⟨hj, rfl⟩ := List.getElem?_eq_some_iff.1 hc'
        rw [pages_branch, List.nodup_cons, List.nodup_flatMap] at hnodup
        obtain ⟨-, heach, hapart⟩ := hnodup
        have hmem := page_mem_pages_of_along hs
        have hmem' := page_mem_pages_of_along hs'
        rw [hpage] at hmem
        -- the page lies below both children, and different children share no page
        have hij : i = j := by
          have hcross := List.pairwise_iff_getElem.1 hapart
          rcases Nat.lt_trichotomy i j with hlt | heq | hlt
          · exact absurd hmem' (hcross i j hi hj hlt hmem)
          · exact heq
          · exact absurd hmem (hcross j i hj hi hlt hmem')
        subst hij
        rw [ih (heach _ (List.getElem_mem hi)) hs hs']

end Tree

namespace PageFile

open RowIndex.Tree

variable {f g : PageFile} {height : Nat} {t : Tree}

/-- **The page at the end of a path**: at every step a child of the node is taken, by its place. -/
def pageAlong (f : PageFile) : List Nat → PageId → Option PageId
  | [], p => some p
  | i :: path, p =>
    match f.readPage p with
    | .error _ => none
    | .ok node => node.children[i]?.bind (f.pageAlong path)

/-- The paths through the pages of a tree are those through the tree. -/
theorem Holds.pageAlong (h : f.Holds t) (path : List Nat) :
    f.pageAlong path t.page = (along path t).map page := by
  induction path generalizing t with
  | nil => rw [PageFile.pageAlong, along_nil, Option.map_some]
  | cons i path ih =>
    rw [PageFile.pageAlong, h.readPage]
    cases t with
    | leaf id es next => rw [along_leaf]; rfl
    | branch id keys children =>
      have hchildren : (branch id keys children).node.children = children.map page := rfl
      simp only [hchildren, List.getElem?_map]
      rw [along_branch]
      cases hc : children[i]? with
      | none => rfl
      | some c => exact ih ((holds_branch_iff.1 h).2 c (List.mem_of_getElem? hc))

/-- **One path only leads to a page of a tree** in which no page is used twice. -/
theorem Holds.existsUnique_pageAlong (h : f.Holds t) (hnodup : t.pages.Nodup) {p : PageId}
    (hp : p ∈ t.pages) : ∃! path, f.pageAlong path t.page = some p := by
  obtain ⟨s, hs, rfl⟩ := List.mem_map.1 hp
  obtain ⟨path, hpath⟩ := exists_along hs
  refine ⟨path, (h.pageAlong path).trans (by rw [hpath, Option.map_some]), fun path' hpath' => ?_⟩
  obtain ⟨s', hs', hpage⟩ := Option.map_eq_some_iff.1 ((h.pageAlong path').symm.trans hpath')
  exact along_inj hnodup hs' hpath hpage

/-! ## (2) Trees that have all pages -/

/-- **All allocated pages**, in their order. -/
def allocatedPages (f : PageFile) : List PageId :=
  (List.range' 1 (f.pageCount - 1)).map PageId.ofIndex

@[simp] theorem length_allocatedPages (f : PageFile) : f.allocatedPages.length = f.pageCount - 1 := by
  rw [allocatedPages, List.length_map, List.length_range']

theorem mem_allocatedPages {p : PageId} : p ∈ f.allocatedPages ↔ f.record.isAllocated p := by
  have hmax := f.record.pages.toInt_lt
  rw [allocatedPages, List.mem_map]
  constructor
  · rintro ⟨i, hi, rfl⟩
    rw [List.mem_range'_1, pageCount, Metadata.pageCount] at hi
    have hindex : (PageId.ofIndex i).val.toInt = i := Int32.toInt_ofNat_of_lt (by omega)
    rw [Metadata.isAllocated_iff, hindex]
    omega
  · intro hp
    have hplace := Metadata.index_of_isAllocated hp
    refine ⟨p.index, ?_, PageId.ofIndex_index (Metadata.isValid_of_isAllocated hp)⟩
    rw [List.mem_range'_1, pageCount]
    omega

/-- **Every counted page behind page 0 is allocated.** -/
theorem isAllocated_ofIndex {i : Nat} (hone : 1 ≤ i) (hlt : i < f.pageCount) :
    f.record.isAllocated (PageId.ofIndex i) :=
  mem_allocatedPages.1 (List.mem_map.2 ⟨i, List.mem_range'_1.2 ⟨hone, by omega⟩, rfl⟩)

theorem nodup_allocatedPages (f : PageFile) : f.allocatedPages.Nodup := by
  have hmax := f.record.pages.toInt_lt
  refine (List.nodup_map_iff_inj_on List.nodup_range').2 fun i hi j hj heq => ?_
  rw [List.mem_range'_1, pageCount, Metadata.pageCount] at hi hj
  rw [← PageId.index_ofIndex (i := i) (by omega), heq, PageId.index_ofIndex (by omega)]

/-- **The tree has all allocated pages**, apart from spare ones. Without a tree there is no page but
page 0. -/
inductive Tended (spare : Node → Prop) (f : PageFile) : List (Int32 × RowId) → Prop
  /-- Nothing was inserted yet. -/
  | nothing : ¬ f.root.isValid → f.record.pages.toInt = 1 → Tended spare f []
  /-- The tree has entries, and the pages outside it are spare. -/
  | tree {height : Nat} {t : Tree} : f.Carries height t → t.entries ≠ [] →
      (∀ p, f.record.isAllocated p → p ∉ t.pages → ∃ n, f.readPage p = .ok n ∧ spare n) →
      Tended spare f t.entries

namespace Tended

variable {spare : Node → Prop} {L : List (Int32 × RowId)}

theorem lists (h : Tended spare f L) : f.Lists L := by
  cases h with
  | nothing hroot => exact .nothing hroot
  | tree hcarries => exact .tree hcarries

/-- What reads the same is tended alike. -/
theorem congr (h : Tended spare f L) (hrecord : g.record = f.record)
    (hread : ∀ p, g.readPage p = f.readPage p) : Tended spare g L := by
  cases h with
  | nothing hroot hpages => exact .nothing (by rwa [root, hrecord]) (by rwa [hrecord])
  | tree hcarries hentries hspare =>
    refine .tree (hcarries.congr hrecord hread) hentries fun p hp hpt => ?_
    rw [hread]
    exact hspare p (by rwa [← hrecord]) hpt

/-- A new file has nothing but page 0. -/
theorem create {host : Host} {path : String} {sizing : Sizing}
    (h : create host path sizing = .ok f) : Tended spare f [] := by
  obtain ⟨-, rfl⟩ := create_eq_ok_iff.1 h
  exact .nothing (of_decide_eq_true rfl) rfl

/-- **A tree that gained the pages that were allocated** has all pages it had to have. -/
theorem of_gained {t' : Tree} (hcarries : g.Carries height t') (hentries : t'.entries ≠ [])
    (hgained : Gained f g t t')
    (hspare : ∀ p, f.record.isAllocated p → p ∉ t.pages → ∃ n, f.readPage p = .ok n ∧ spare n) :
    Tended spare g t'.entries := by
  refine .tree hcarries hentries fun p hg hpt' => ?_
  by_cases hf : f.record.isAllocated p
  · have hpt : p ∉ t.pages := fun hpt => by
      obtain ⟨new, hperm, -⟩ := hgained.pages
      exact hpt' (hperm.mem_iff.2 (List.mem_append_right _ hpt))
    rw [hgained.frame p hf hpt]
    exact hspare p hf hpt
  · exact absurd (hgained.mem_pages hg hf) hpt'

/-- **An insertion that succeeds** gives the tree all pages it allocates. -/
theorem inserted (h : Tended spare f L) {key : Int32} {value : RowId}
    (hrun : (insertValue key value).runOn f = (.ok (), g)) :
    ∃ front back, L = front ++ back ∧ (∀ e ∈ front, e.1 ≤ key) ∧ (∀ e ∈ back, key < e.1) ∧
      Tended spare g (front ++ (key, value) :: back) := by
  cases h with
  | nothing hroot hpages =>
    rcases insertValue_unrooted_cases hroot key value with
      ⟨failure, g', hrun', -⟩ | ⟨g', hrun', hcarries, hcount⟩ | ⟨hnone, -⟩
    · rw [hrun] at hrun'
      cases hrun'
    · rw [hrun] at hrun'
      cases hrun'
      refine ⟨[], [], rfl, by simp, by simp, ?_⟩
      -- the new leaf has the one page that is allocated now
      refine .tree hcarries (by simp) fun p hp hpt => absurd ?_ hpt
      rw [Metadata.isAllocated_iff, hcount, hpages] at hp
      rw [pages_leaf, List.mem_singleton, nextPage]
      exact congrArg PageId.mk (Int32.toInt_inj.1 (by omega))
    · exact absurd (Int.le_of_eq hpages.symm) hnone
  | @tree height t hcarries hentries hspare =>
    have hattempt := hcarries.attempt key value
    rw [hrun] at hattempt
    cases hattempt with
    | below hk hraised hgained hbelow =>
      cases hbelow with
      | done hsplits hput hgrown =>
        obtain ⟨hcarries', front, back, hbefore, hafter, hfront, hback⟩ :=
          hk.of_put hsplits hput hgrown
        refine ⟨front, back, hraised.entries.symm.trans hbefore, hfront, hback, ?_⟩
        have htended := of_gained hcarries' (by simp [hafter]) (hgained.trans hgrown.gained) hspare
        rwa [hafter] at htended

/-- **An insertion that fails** leaves a spare page at most: one for a new root. -/
theorem failed (h : Tended spare f L) (hfresh : ∀ p, spare (Node.overChild p .metadata))
    {key : Int32} {value : RowId} {failure : Failure}
    (hrun : (insertValue key value).runOn f = (.error failure, g)) : Tended spare g L := by
  cases h with
  | nothing hroot hpages =>
    rcases insertValue_unrooted_cases hroot key value with
      ⟨failure', g', hrun', hrefused⟩ | ⟨g', hrun', -⟩ | ⟨hnone, -⟩
    · rw [hrun] at hrun'
      cases hrun'
      exact (Tended.nothing hroot hpages).congr hrefused.record hrefused.read
    · rw [hrun] at hrun'
      cases hrun'
    · exact absurd (Int.le_of_eq hpages.symm) hnone
  | @tree height t hcarries hentries hspare =>
    obtain ⟨-, hfailed⟩ := hcarries.failed hrun
    cases hfailed with
    | nothing hroot =>
      exact absurd (Metadata.isValid_of_isAllocated hcarries.isAllocated_root) hroot
    | @tree _ height' u t' hf hg hspared =>
      -- the tree that was spared is the one that `f` carries
      have htree : some t = some u := Except.ok.inj (hcarries.tree_eq.symm.trans hf.tree_eq)
      obtain rfl := Option.some.inj htree
      rw [← hspared.entries] at hentries ⊢
      refine .tree hg hentries fun p hp hpt' => ?_
      have hpt : p ∉ t.pages := fun hpt => hpt' (hspared.kept p hpt)
      by_cases hold : f.record.isAllocated p
      · rw [(hspared.outside p hold hpt).2]
        exact hspare p hold hpt
      · rcases hspared.fresh p hp hold with hmem | ⟨-, hread⟩
        · exact absurd hmem hpt'
        · exact ⟨_, hread, hfresh p⟩

/-- **A deletion that succeeds** keeps every node on its page. -/
theorem deleted (h : Tended spare f L) (hclear : ∀ n targets, spare n → spare (n.clear targets))
    {texts : List String} {n : Nat} (hrun : (deleteValues texts).runOn f = (.ok n, g)) :
    Tended spare g (L.map fun e => (e.1, e.2.cleared (targetsOf texts))) := by
  obtain ⟨⟨hrecord, -⟩, hall⟩ := deleteValues_cases texts f
  rw [hrun] at hrecord hall
  cases h with
  | nothing hroot hpages => exact .nothing (by rwa [root, hrecord]) (by rwa [hrecord])
  | @tree height t hcarries hentries hspare =>
    rw [← entries_clearOn_all]
    refine .tree (hcarries.deleted hrun) (by simpa [entries_clearOn_all] using hentries) ?_
    intro p hp hpt
    rw [hrecord] at hp
    have hpt' : p ∉ t.pages := by
      rwa [clearOn, pages_mapSlots] at hpt
    obtain ⟨node, hnode, hspared⟩ := hspare p hp hpt'
    refine ⟨node.clear (targetsOf texts), ?_, hclear node _ hspared⟩
    rw [hall n rfl p hp, hnode]
    rfl

/-- Letting go of a file and opening it again changes nothing. -/
theorem reopened (h : Tended spare f L) (hinUse : f.InUse) (saved : Bool) (sizing : Sizing) :
    Tended spare (f.call (.reopen saved sizing)).2 L := by
  rw [PageFile.call]
  split
  · rename_i g hopen
    obtain ⟨hrecord, hread⟩ := hinUse.openImage_leftBehind hopen
    exact h.congr hrecord hread
  · exact h.congr (record_leftBehind f saved) (readPage_leftBehind f saved)

/-- **A call that succeeds** keeps the pages tended. -/
theorem succeeded (h : Tended spare f L) (hinUse : f.InUse)
    (hclear : ∀ n targets, spare n → spare (n.clear targets)) {c : Call}
    (hrun : f.call c = (.ok (), g)) : ∃ L', Tended spare g L' ∧ c.Changes L L' := by
  cases c with
  | insert key text =>
    obtain ⟨front, back, rfl, hfront, hback, htended⟩ := h.inserted hrun
    exact ⟨_, htended, .insert hfront hback⟩
  | deleteValues texts =>
    rw [PageFile.call] at hrun
    rcases hdelete : (PageFile.deleteValues texts).runOn f with ⟨failure | n, k⟩
    · rw [hdelete] at hrun
      cases hrun
    · rw [hdelete] at hrun
      obtain rfl : k = g := congrArg Prod.snd hrun
      exact ⟨_, h.deleted hclear hdelete, .deleteValues⟩
  | save =>
    rw [PageFile.call, runOn_flush] at hrun
    split at hrun
    · obtain rfl : f.flushed = g := congrArg Prod.snd hrun
      exact ⟨L, h.congr (record_flushed f) (readPage_flushed f), .save⟩
    · cases hrun
  | reopen saved sizing =>
    have hreopened := h.reopened hinUse saved sizing
    rw [hrun] at hreopened
    exact ⟨L, hreopened, .reopen⟩

end Tended

end PageFile

/-! ## (3) Runs of calls -/

/-- Whether a call is an insertion. -/
def Call.isInsert : Call → Bool
  | .insert _ _ => true
  | _ => false

/-- **An insertion adds an entry**, and no other call changes how many there are. -/
theorem Call.Changes.length_eq {c : Call} {L L' : List (Int32 × RowId)} (h : c.Changes L L') :
    L'.length = L.length + if c.isInsert then 1 else 0 := by
  cases h with
  | insert => simp [isInsert, Nat.add_assoc]
  | deleteValues => simp [isInsert]
  | save => rfl
  | reopen => rfl

namespace PageFile

open RowIndex.Tree

variable {f g : PageFile} {height : Nat} {t : Tree}

/-- **In a run of calls that all succeed** the pages stay tended, and every insertion adds an
entry. -/
theorem Tended.afterAll {spare : Node → Prop} {L : List (Int32 × RowId)} {calls : List Call}
    (h : Tended spare f L) (hinUse : f.InUse)
    (hclear : ∀ n targets, spare n → spare (n.clear targets)) (hrun : f.afterAll calls = .ok g) :
    ∃ L', Tended spare g L' ∧ L'.length = L.length + calls.countP Call.isInsert := by
  induction calls generalizing f L with
  | nil =>
    obtain rfl := Except.ok.inj hrun
    exact ⟨L, h, rfl⟩
  | cons c calls ih =>
    obtain ⟨k, hcall, hrest⟩ := afterAll_cons_eq_ok_iff.1 hrun
    have hk := hinUse.call c
    rw [hcall] at hk
    obtain ⟨L₁, htended, hchanges⟩ := h.succeeded hinUse hclear hcall
    obtain ⟨L', htended', hlength⟩ := ih htended hk hrest
    refine ⟨L', htended', ?_⟩
    rw [hlength, hchanges.length_eq, List.countP_cons]
    omega

/-- **A tree that has all allocated pages** has as many nodes. -/
theorem Carries.length_subtrees_eq (h : f.Carries height t)
    (hall : ∀ p, f.record.isAllocated p → p ∈ t.pages) : t.subtrees.length + 1 = f.pageCount := by
  have hge := (List.subperm_of_subset f.nodup_allocatedPages fun p hp =>
    hall p (mem_allocatedPages.1 hp)).length_le
  rw [length_allocatedPages, pages, List.length_map] at hge
  have hle := h.length_subtrees_le
  have hlast := (Metadata.index_of_isAllocated h.isAllocated_root).2
  have hcount : f.pageCount = f.record.pageCount := rfl
  omega

/-- The statistics of a file that an audit accepts. -/
theorem stats_of_verify {s : TreeStats} (h : f.verify = .ok s) : f.stats = .ok s := by
  rw [verify] at h
  rw [stats]
  cases haudit : f.audit with
  | error failure =>
    rw [haudit] at h
    cases h
  | ok found =>
    rw [haudit] at h
    change (if found.violations.isEmpty then Except.ok found.stats else _) = _ at h
    split at h
    · exact h
    · cases h

/-- **The statistics of a tree count each node once, and each entry.** -/
theorem counts_of_stats (t : Tree) (pages : Int32) :
    (t.stats pages).leafPages + (t.stats pages).internalPages = t.subtrees.length ∧
      (t.stats pages).liveEntries = (t.entries.filter isLive).length ∧
      (t.stats pages).liveEntries + (t.stats pages).tombstones = t.entries.length := by
  refine ⟨?_, ?_, ?_⟩
  · show t.leaves.length + t.branchCount = _
    rw [length_leaves_eq_countP, branchCount_eq_countP,
      List.length_eq_countP_add_countP (fun s => s.node.isLeaf) (l := t.subtrees)]
    simp
  · show (t.entries.map (·.2)).countP (fun v => !v.isTombstone) = _
    rw [List.countP_map, List.countP_eq_length_filter]
    rfl
  · show (t.entries.map (·.2)).countP (fun v => !v.isTombstone)
      + (t.entries.map (·.2)).countP RowId.isTombstone = _
    have hlength : (t.entries.map (·.2)).length = t.entries.length := List.length_map _
    rw [Nat.add_comm, ← hlength, List.length_eq_countP_add_countP RowId.isTombstone]
    simp

/-- **No page is lost or shared, and the statistics are exact.** After a run of calls on a new index
that all succeed, every allocated page is a node of the tree and is reached from the root along one
path only. So the nodes that the statistics count are all pages but page 0, there are none before the
first insertion, and every insertion is counted as one entry, live or not. -/
theorem no_page_lost_or_shared {host : Host} {path : String} {sizing : Sizing} {calls : List Call}
    (hcreate : create host path sizing = .ok f) (hrun : f.afterAll calls = .ok g) :
    (∀ p, g.record.isAllocated p →
      g.InTree p ∧ ∃! places, g.pageAlong places g.root = some p) ∧
    ∃ s, g.stats = .ok s ∧ s.leafPages + s.internalPages + 1 = g.pageCount ∧
      (calls.countP Call.isInsert = 0 →
        s.leafPages = 0 ∧ s.internalPages = 0 ∧ g.pageCount = 1) ∧
      (∃ es, g.entries = .ok es ∧ s.liveEntries = es.length) ∧
      s.liveEntries + s.tombstones = calls.countP Call.isInsert := by
  have hempty : Tended (fun _ => False) f [] := .create hcreate
  obtain ⟨L, htended, hlength⟩ :=
    hempty.afterAll (inUse_create hcreate) (fun _ _ hspare => hspare) hrun
  rw [List.length_nil, Nat.zero_add] at hlength
  have hentries := htended.lists.entries_eq
  cases htended with
  | nothing hroot hpages =>
    have hcount : g.pageCount = 1 := by
      rw [pageCount, Metadata.pageCount, hpages]
      rfl
    have hstats := stats_of_verify (verify_eq_ok_iff.2 (Or.inl ⟨hroot, rfl⟩))
    refine ⟨fun p hp => ?_, _, hstats, hcount.symm, fun _ => ⟨rfl, rfl, hcount⟩,
      ⟨_, hentries, rfl⟩, hlength⟩
    -- there is no page but page 0
    rw [Metadata.isAllocated_iff] at hp
    omega
  | @tree height t hcarries hne hspare =>
    have hall : ∀ p, g.record.isAllocated p → p ∈ t.pages := by
      intro p hp
      by_contra hpt
      obtain ⟨-, -, hfalse⟩ := hspare p hp hpt
      exact hfalse
    have hstats := stats_of_verify (verify_eq_ok_iff.2 (Or.inr ⟨height, t, hcarries, rfl⟩))
    obtain ⟨hnodes, hlive, hslots⟩ := counts_of_stats t g.record.pages
    refine ⟨fun p hp => ⟨(hcarries.inTree_iff p).2 (hall p hp), ?_⟩, _, hstats, ?_, fun hnone => ?_,
      ⟨_, hentries, ?_⟩, hslots.trans hlength⟩
    · rw [← hcarries.page]
      exact hcarries.held.existsUnique_pageAlong hcarries.nodup_pages (hall p hp)
    · rw [hnodes, hcarries.length_subtrees_eq hall]
    · rw [hnone] at hlength
      exact absurd (List.eq_nil_of_length_eq_zero hlength) hne
    · rw [hlive, List.length_map]

theorem no_page_lost_or_shared_newFile :
    ∃ g t, newFile.afterAll splittingCalls = .ok g ∧ g.Carries 1 t ∧
      (∀ p, g.record.isAllocated p →
        g.InTree p ∧ ∃! places, g.pageAlong places g.root = some p) ∧ ∃ s, g.stats = .ok s ∧
        s.leafPages + s.internalPages + 1 = g.pageCount ∧
          s.liveEntries + s.tombstones = splittingRow.length := by
  obtain ⟨-, g, t, -, -, hrun, hg⟩ := exists_afterAll_splittingCalls
  obtain ⟨hpages, s, hstats, hcount, -, -, hslots⟩ := no_page_lost_or_shared create_newFile hrun
  refine ⟨g, t, hrun, hg, hpages, s, hstats, hcount, hslots.trans ?_⟩
  -- all calls are insertions
  rw [splittingCalls, List.countP_map]
  exact List.countP_eq_length.2 fun _ _ => rfl

end PageFile

end RowIndex
