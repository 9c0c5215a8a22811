import RowIndex.Proofs.Insertions

/-! # Deletions

A deletion goes through all pages and clears slots in place. Keys, children and links stay, so a file
that an audit accepts is accepted afterwards, also when a page on the way cannot be read.

* **`RowId.cleared`**, `Node.clear_clear` — what becomes of a slot and of a node.
* **`Tree.mapSlots`** — a tree with other slots; it is ordered and linked as before.
* **`PageFile.Cleared`** — some pages of the file have their slots cleared; `clearedAt` is the file
  after one page of a deletion.
* **`clearFrom_cases`**, `Lists.deleteValues` — all that a deletion can do. -/

namespace RowIndex

/-! ## (1) Cleared slots and nodes -/

/-- **A slot after a deletion** of `targets`. -/
def RowId.cleared (targets : List RowId) (value : RowId) : RowId :=
  if targets.contains value then .tombstone else value

/-- A slot is cleared once. -/
theorem RowId.cleared_cleared (targets : List RowId) (value : RowId) :
    (value.cleared targets).cleared targets = value.cleared targets := by
  by_cases hvalue : targets.contains value
  · simp only [cleared, if_pos hvalue, ite_self]
  · simp only [cleared, if_neg hvalue]

namespace Node

theorem clear_leaf (targets : List RowId) (id : PageId) (keys : List Int32) (values : List RowId)
    (next : PageId) :
    clear ⟨id, keys, .leaf values next⟩ targets
      = ⟨id, keys, .leaf (values.map (RowId.cleared targets)) next⟩ := rfl

@[simp] theorem id_clear (n : Node) (targets : List RowId) : (n.clear targets).id = n.id := by
  obtain ⟨id, keys, values | children⟩ := n <;> rfl

/-- A node that fits in its page still fits. -/
theorem defect?_clear {n : Node} (h : n.defect? = none) (targets : List RowId) :
    (n.clear targets).defect? = none := by
  obtain ⟨id, keys, ⟨values, next⟩ | children⟩ := n
  · rw [clear_leaf, defect?_eq_none_iff]
    simpa using (defect?_eq_none_iff _).1 h
  · exact h

/-- A node is cleared once. -/
theorem clear_clear (n : Node) (targets : List RowId) :
    (n.clear targets).clear targets = n.clear targets := by
  obtain ⟨id, keys, ⟨values, next⟩ | children⟩ := n
  · rw [clear_leaf, clear_leaf, List.map_map]
    refine congrArg (fun values => Node.mk id keys (.leaf values next)) (List.map_congr_left ?_)
    exact fun value _ => value.cleared_cleared targets
  · rfl

/-- Nothing is cleared in a node without targets. -/
theorem clear_eq_self {n : Node} {targets : List RowId} (h : n.countOf targets = 0) :
    n.clear targets = n := by
  obtain ⟨id, keys, ⟨values, next⟩ | children⟩ := n
  · rw [countOf, List.countP_eq_zero] at h
    rw [clear_leaf]
    refine congrArg (fun values => Node.mk id keys (.leaf values next)) ?_
    refine (List.map_congr_left fun value hvalue => ?_).trans (List.map_id values)
    exact if_neg (h value hvalue)
  · rfl

end Node

namespace Tree

/-! ## (2) Trees with other slots -/

mutual

/-- **The tree with other slots**, chosen by page and slot. -/
def mapSlots (φ : PageId → RowId → RowId) : Tree → Tree
  | .leaf id entries next => .leaf id (entries.map fun e => (e.1, φ id e.2)) next
  | .branch id keys children => .branch id keys (mapSlotsOf φ children)

/-- A row of trees with other slots. -/
def mapSlotsOf (φ : PageId → RowId → RowId) : List Tree → List Tree
  | [] => []
  | t :: ts => mapSlots φ t :: mapSlotsOf φ ts

end

section MapSlots

variable (φ : PageId → RowId → RowId)

@[simp] theorem mapSlots_leaf (id : PageId) (es : List (Int32 × RowId)) (next : PageId) :
    mapSlots φ (.leaf id es next) = .leaf id (es.map fun e => (e.1, φ id e.2)) next := by
  simp [mapSlots]

@[simp] theorem mapSlots_branch (id : PageId) (keys : List Int32) (children : List Tree) :
    mapSlots φ (.branch id keys children) = .branch id keys (children.map (mapSlots φ)) := by
  have row : ∀ ts, mapSlotsOf φ ts = ts.map (mapSlots φ) := by
    intro ts
    induction ts with
    | nil => simp [mapSlotsOf]
    | cons t ts ih => simp [mapSlotsOf, ih]
  simp [mapSlots, row]

@[simp] theorem page_mapSlots (t : Tree) : (t.mapSlots φ).page = t.page := by
  cases t <;> simp

/-- All nodes have other slots. -/
theorem subtrees_mapSlots (t : Tree) :
    (t.mapSlots φ).subtrees = t.subtrees.map (mapSlots φ) := by
  induction t with
  | leaf id es next => simp
  | branch id keys children ih =>
    have hbelow : children.flatMap (fun c => (c.mapSlots φ).subtrees)
        = children.flatMap fun c => c.subtrees.map (mapSlots φ) := by
      rw [List.flatMap_def, List.flatMap_def, List.map_congr_left ih]
    simp [List.flatMap_map, List.map_flatMap, hbelow]

/-- They are on the same pages. -/
theorem pages_mapSlots (t : Tree) : (t.mapSlots φ).pages = t.pages := by
  rw [pages, subtrees_mapSlots, List.map_map, pages]
  exact List.map_congr_left fun s _ => page_mapSlots φ s

theorem least_mapSlots (t : Tree) : (t.mapSlots φ).least = t.least := by
  induction t with
  | leaf id es next => cases es <;> simp
  | branch id keys children ih =>
    cases children with
    | nil => simp
    | cons c cs => simpa using ih c List.mem_cons_self

/-- The chain sees the same leaves. -/
theorem links_mapSlots (t : Tree) : links (t.mapSlots φ).leaves = links t.leaves := by
  induction t with
  | leaf id es next => simp [links]
  | branch id keys children ih =>
    simp only [mapSlots_branch, leaves_branch, links, List.flatMap_map, List.map_flatMap] at ih ⊢
    rw [List.flatMap_def, List.flatMap_def, List.map_congr_left ih]

/-- **Other slots keep a tree ordered.** -/
theorem Ordered.mapSlots {height : Nat} {lower upper : Option Int32} {t : Tree}
    (h : Ordered height lower upper t) : Ordered height lower upper (t.mapSlots φ) := by
  induction t generalizing height lower upper with
  | leaf id es next =>
    cases height with
    | zero =>
      rw [ordered_leaf_iff] at h
      rw [mapSlots_leaf, ordered_leaf_iff, List.map_map]
      exact h
    | succ height => exact absurd h (by simp [Ordered])
  | branch id keys children ih =>
    cases height with
    | zero => exact absurd h (by simp [Ordered])
    | succ height =>
      obtain ⟨hne, hkeys, hrow⟩ := ordered_branch_iff.1 h
      rw [mapSlots_branch, ordered_branch_iff]
      exact ⟨hne, hkeys, hrow.map (least_mapSlots φ) fun c hc lower upper => ih c hc⟩

/-- The keys of the entries stay. -/
theorem map_fst_entries_mapSlots (t : Tree) :
    (t.mapSlots φ).entries.map (·.1) = t.entries.map (·.1) := by
  induction t with
  | leaf id es next => simp
  | branch id keys children ih =>
    simp only [mapSlots_branch, entries_branch, List.flatMap_map, List.map_flatMap]
    rw [List.flatMap_def, List.flatMap_def, List.map_congr_left ih]

/-- **The entries**, when every slot is replaced alike. -/
theorem entries_mapSlots {φ : PageId → RowId → RowId} {ψ : RowId → RowId} {t : Tree}
    (h : ∀ p ∈ t.pages, φ p = ψ) :
    (t.mapSlots φ).entries = t.entries.map fun e => (e.1, ψ e.2) := by
  induction t with
  | leaf id es next => simp [h id (by simp)]
  | branch id keys children ih =>
    have hbelow : ∀ c ∈ children, (c.mapSlots φ).entries = c.entries.map fun e => (e.1, ψ e.2) :=
      fun c hc => ih c hc fun p hp =>
        h p (by rw [pages_branch]; exact List.mem_cons_of_mem _ (List.mem_flatMap.2 ⟨c, hc, hp⟩))
    simp only [mapSlots_branch, entries_branch, List.flatMap_map, List.map_flatMap]
    rw [List.flatMap_def, List.flatMap_def, List.map_congr_left hbelow]

end MapSlots

/-- **The tree with `targets` cleared** on the pages that were touched. -/
def clearOn (targets : List RowId) (touched : PageId → Bool) (t : Tree) : Tree :=
  t.mapSlots fun p value => if touched p then value.cleared targets else value

/-- The entries, when all pages were touched. -/
theorem entries_clearOn_all (targets : List RowId) (t : Tree) :
    (t.clearOn targets fun _ => true).entries = t.entries.map fun e => (e.1, e.2.cleared targets) :=
  entries_mapSlots fun _ _ => rfl

theorem node_clearOn (targets : List RowId) (touched : PageId → Bool) (t : Tree) :
    (t.clearOn targets touched).node
      = if touched t.page then t.node.clear targets else t.node := by
  cases t with
  | leaf id es next =>
    by_cases htouched : touched id <;>
      simp [clearOn, node, htouched, Node.clear_leaf, Function.comp_def]
  | branch id keys children =>
    have hsame : (branch id keys children).node.clear targets = (branch id keys children).node := rfl
    rw [hsame, ite_self, clearOn, mapSlots_branch]
    simp only [node, List.map_map]
    exact congrArg (fun ps => Node.mk id keys (.internal ps))
      (List.map_congr_left fun c _ => page_mapSlots _ c)

end Tree

namespace PageFile

open RowIndex.Tree

/-! ## (3) Pages with cleared slots -/

/-- **Some pages have their slots cleared**, and nothing else is changed. -/
structure Cleared (targets : List RowId) (f g : PageFile) : Prop where
  /-- The record stays. -/
  record : g.record = f.record
  /-- A page reads as before, or with its slots cleared. -/
  read : ∀ p, g.readPage p = f.readPage p ∨ g.readPage p = (f.readPage p).map (·.clear targets)

namespace Cleared

variable {targets : List RowId} {f g k : PageFile}

theorem refl (targets : List RowId) (f : PageFile) : Cleared targets f f :=
  ⟨rfl, fun _ => Or.inl rfl⟩

/-- What was cleared is not changed when it is cleared again. -/
theorem map_map (r : Except Failure Node) :
    (r.map (·.clear targets)).map (·.clear targets) = r.map (·.clear targets) := by
  cases r with
  | error failure => rfl
  | ok node => exact congrArg Except.ok (node.clear_clear targets)

theorem trans (h : Cleared targets f g) (h' : Cleared targets g k) : Cleared targets f k := by
  refine ⟨h'.record.trans h.record, fun p => ?_⟩
  rcases h.read p with hg | hg <;> rcases h'.read p with hk | hk <;> rw [hg] at hk
  · exact Or.inl hk
  · exact Or.inr hk
  · exact Or.inr hk
  · exact Or.inr (hk.trans (map_map _))

/-- A page that was cleared stays so. -/
theorem read_of_cleared (h : Cleared targets f g) {p : PageId} {node : Node}
    (hread : f.readPage p = .ok (node.clear targets)) : g.readPage p = .ok (node.clear targets) := by
  rcases h.read p with hg | hg
  · exact hg.trans hread
  · rw [hg, hread]
    exact congrArg Except.ok (node.clear_clear targets)

end Cleared

/-- **The file after one page of a deletion**: the page is written only if some slot on it is cleared. -/
def clearedAt (f : PageFile) (targets : List RowId) (node : Node) : PageFile :=
  if node.countOf targets ≠ 0 then f.withNode (node.clear targets) else f

section OnePage

variable {f : PageFile} {p : PageId} {node : Node} (targets : List RowId)

/-- A cleared node lies on the page of the node. -/
theorem isAllocated_clear (hread : f.readPage p = .ok node) :
    f.record.isAllocated (node.clear targets).id := by
  rw [Node.id_clear, id_of_readPage hread]
  exact isAllocated_of_readPage hread

/-- **A deletion goes on behind a page that can be read.** -/
theorem runOn_clearFrom_succ {i : Nat} (hread : f.readPage (PageId.ofIndex i) = .ok node)
    (count cleared : Nat) :
    (clearFrom targets (count + 1) i cleared).runOn f =
      (clearFrom targets count (i + 1) (cleared + node.countOf targets)).runOn
        (f.clearedAt targets node) := by
  rw [clearFrom, Action.runOn_bind, Action.runOn_ask, hread]
  simp only
  rw [clearedAt]
  split
  · rw [Action.runOn_bind, runOn_writePage_of_fits (isAllocated_clear targets hread)
      (Node.defect?_clear (defect?_of_readPage hread) targets)]
  · rfl

/-- **The page reads as cleared**, whether it was written or not, and all others as before. -/
theorem readPage_clearedAt (hread : f.readPage p = .ok node) (q : PageId) :
    (f.clearedAt targets node).readPage q =
      if q = p then .ok (node.clear targets) else f.readPage q := by
  rw [clearedAt]
  split
  · rw [readPage_withNode (Node.defect?_clear (defect?_of_readPage hread) targets)
      (isAllocated_clear targets hread), Node.id_clear, id_of_readPage hread]
  · rename_i hnone
    split
    · rename_i hq
      rw [hq, hread, Node.clear_eq_self (not_not.1 hnone)]
    · rfl

/-- One page of a deletion clears no other slots. -/
theorem cleared_clearedAt (hread : f.readPage p = .ok node) :
    Cleared targets f (f.clearedAt targets node) := by
  refine ⟨?_, fun q => ?_⟩
  · rw [clearedAt]
    split <;> rfl
  · rw [readPage_clearedAt targets hread]
    split
    · rename_i hq
      rw [hq, hread]
      exact Or.inr rfl
    · exact Or.inl rfl

end OnePage

/-- **All that clearing a row of pages can do**: some pages are cleared, and all of them when it
succeeds. -/
theorem clearFrom_cases (targets : List RowId) (count i cleared : Nat) (f : PageFile) :
    Cleared targets f ((clearFrom targets count i cleared).runOn f).2 ∧
      ∀ n, ((clearFrom targets count i cleared).runOn f).1 = .ok n →
        ∀ p, f.record.isAllocated p → i ≤ p.index → p.index < i + count →
          ((clearFrom targets count i cleared).runOn f).2.readPage p
            = (f.readPage p).map (·.clear targets) := by
  induction count generalizing i cleared f with
  | zero => exact ⟨.refl targets f, fun _ _ p _ hle hlt => absurd hlt (by omega)⟩
  | succ count ih =>
    cases hread : f.readPage (PageId.ofIndex i) with
    | error failure =>
      have hrun : (clearFrom targets (count + 1) i cleared).runOn f = (.error failure, f) := by
        rw [clearFrom, Action.runOn_bind, Action.runOn_ask, hread]
      rw [hrun]
      exact ⟨.refl targets f, fun n hn => by cases hn⟩
    | ok node =>
      have hcleared := cleared_clearedAt targets hread
      have hpages := readPage_clearedAt targets hread
      rw [runOn_clearFrom_succ targets hread]
      obtain ⟨hrest, hall⟩ :=
        ih (i + 1) (cleared + node.countOf targets) (f.clearedAt targets node)
      refine ⟨hcleared.trans hrest, fun n hn p hp hle hlt => ?_⟩
      -- the first page was cleared before the others, and stays so
      by_cases hi : p = PageId.ofIndex i
      · rw [hi, hread]
        exact hrest.read_of_cleared ((hpages _).trans (if_pos rfl))
      · have hne : p.index ≠ i := by
          rintro rfl
          exact hi (PageId.ofIndex_index (Metadata.isValid_of_isAllocated hp)).symm
        rw [hall n hn p (by rwa [hcleared.record]) (by omega) (by omega), hpages, if_neg hi]

/-- **All that a deletion can do to the pages.** -/
theorem deleteValues_cases (texts : List String) (f : PageFile) :
    Cleared (targetsOf texts) f ((deleteValues texts).runOn f).2 ∧
      ∀ n, ((deleteValues texts).runOn f).1 = .ok n → ∀ p, f.record.isAllocated p →
        ((deleteValues texts).runOn f).2.readPage p
          = (f.readPage p).map (·.clear (targetsOf texts)) := by
  rw [deleteValues]
  split
  · -- with no targets nothing is written, and clearing nothing changes no node
    rename_i hempty
    refine ⟨.refl _ f, fun n _ p _ => ?_⟩
    rw [Action.runOn_pure, List.isEmpty_iff.1 hempty]
    cases f.readPage p with
    | error failure => rfl
    | ok node =>
      have hnone : node.countOf [] = 0 := List.countP_eq_zero.2 fun _ _ => Bool.false_ne_true
      exact congrArg Except.ok (Node.clear_eq_self hnone).symm
  · -- every allocated page lies among those that are gone through, from the first to the last
    rw [Action.runOn_bind, Action.runOn_get]
    obtain ⟨hcleared, hall⟩ := clearFrom_cases (targetsOf texts) (f.pageCount - 1) 1 0 f
    refine ⟨hcleared, fun n hn p hp => hall n hn p hp ?_ ?_⟩
    · exact (Metadata.index_of_isAllocated hp).1
    · have hlt := (Metadata.index_of_isAllocated hp).2
      unfold pageCount
      omega

/-! ## (4) Deleting from a file -/

/-- **A tree whose slots were cleared on some pages** is carried. -/
theorem Carries.clearOn {f g : PageFile} {height : Nat} {t : Tree} {targets : List RowId}
    (h : f.Carries height t) (hrecord : g.record = f.record) (touched : PageId → Bool)
    (hread : ∀ p, f.record.isAllocated p → g.readPage p =
      if touched p then (f.readPage p).map (·.clear targets) else f.readPage p) :
    g.Carries height (t.clearOn targets touched) where
  page := by rw [Tree.clearOn, page_mapSlots, h.page, root, root, hrecord]
  held := by
    intro s' hs'
    rw [Tree.clearOn, subtrees_mapSlots] at hs'
    obtain ⟨s, hs, rfl⟩ := List.mem_map.1 hs'
    have hnode := h.held s hs
    rw [page_mapSlots, ← Tree.clearOn, node_clearOn, hread s.page (isAllocated_of_readPage hnode),
      hnode]
    split <;> rfl
  ordered := h.ordered.mapSlots _
  linked := by
    obtain ⟨stop, hstop, hlinked⟩ := h.linked
    exact ⟨stop, hstop, (linked_congr (links_mapSlots _ t)).2 hlinked⟩

/-- **A deletion clears some part of the tree**, whatever its outcome. -/
theorem Carries.touched {f : PageFile} {height : Nat} {t : Tree} (h : f.Carries height t)
    (texts : List String) :
    ∃ touched, ((PageFile.deleteValues texts).runOn f).2.Carries height
      (t.clearOn (targetsOf texts) touched) := by
  obtain ⟨⟨hrecord, hread⟩, -⟩ := deleteValues_cases texts f
  generalize ((PageFile.deleteValues texts).runOn f).2 = g at hrecord hread
  -- the pages that were reached before a failure are those that read differently
  classical
  refine ⟨fun p => g.readPage p ≠ f.readPage p, h.clearOn hrecord _ fun p _ => ?_⟩
  by_cases hsame : g.readPage p = f.readPage p
  · rw [hsame, if_neg (by simp)]
  · rw [if_pos (by simpa using hsame)]
    exact (hread p).resolve_left hsame

/-- **A deletion that succeeds clears the whole tree.** -/
theorem Carries.deleted {f g : PageFile} {height : Nat} {t : Tree} (h : f.Carries height t)
    {texts : List String} {n : Nat} (hrun : (deleteValues texts).runOn f = (.ok n, g)) :
    g.Carries height (t.clearOn (targetsOf texts) fun _ => true) := by
  obtain ⟨⟨hrecord, -⟩, hall⟩ := deleteValues_cases texts f
  rw [hrun] at hrecord hall
  exact h.clearOn hrecord _ fun p hp => hall n rfl p hp

/-- **What a deletion comes to** in a file that lists the entries `before`. -/
inductive Deleted (targets : List RowId) (before : List (Int32 × RowId)) :
    Except Failure Nat × PageFile → Prop
  /-- All slots that held `targets` are cleared. -/
  | done {n : Nat} {g : PageFile} :
      g.Lists (before.map fun e => (e.1, e.2.cleared targets)) → Deleted targets before (.ok n, g)
  /-- Some page could not be read; every key is still there. -/
  | refused {failure : Failure} {g : PageFile} {after : List (Int32 × RowId)} :
      after.map (·.1) = before.map (·.1) → g.Lists after → Deleted targets before (.error failure, g)

/-- **All that a deletion can do** in a file that an audit accepts. -/
theorem Lists.deleteValues {f : PageFile} {L : List (Int32 × RowId)} (h : f.Lists L)
    (texts : List String) :
    Deleted (targetsOf texts) L ((PageFile.deleteValues texts).runOn f) := by
  have hrecord := (deleteValues_cases texts f).1.record
  rcases hrun : (PageFile.deleteValues texts).runOn f with ⟨failure | n, g⟩
  all_goals rw [hrun] at hrecord
  · cases h with
    | nothing hroot => exact .refused rfl (.nothing (by rwa [root, hrecord]))
    | @tree height t hcarries =>
      obtain ⟨touched, hcarries'⟩ := hcarries.touched texts
      rw [hrun] at hcarries'
      exact .refused (map_fst_entries_mapSlots _ t) (.tree hcarries')
  · cases h with
    | nothing hroot => exact .done (.nothing (by rwa [root, hrecord]))
    | @tree height t hcarries =>
      exact .done (entries_clearOn_all (targetsOf texts) t ▸ .tree (hcarries.deleted hrun))

end PageFile

end RowIndex
