import RowIndex.Proofs.CommutingDeletions
import Mathlib.Data.Nat.Find

/-! # What a deletion changes, and what it leaves

A deletion goes through the pages in their order and writes back those on which it clears a slot. It
changes the slots that it counts and nothing else, in every file, also where pages are not reached from
the root, and it stops at the first page that cannot be read.

* **`Node.SlotsCleared`** — a node before and after: the slots with row identifiers to delete are empty.
* **`PageFile.KeptOutside`** — nothing but some row of pages is changed; `keptOutside_clearFrom` for a
  row of pages that is gone through.
* **`runOn_clearFrom_add`** — the pages that can be read come first, and then the others.
* **`deleteValues_exact`** — what a deletion answers, changes and leaves, in any file. -/

namespace RowIndex

namespace Node

/-! ## (1) The slots of a node -/

/-- **A node after a deletion of `targets`**: the slots that held one of them are empty, and everything
else is as it was. -/
structure SlotsCleared (targets : List RowId) (n m : Node) : Prop where
  /-- It lies on the same page. -/
  id : m.id = n.id
  /-- It has the same keys. -/
  keys : m.keys = n.keys
  /-- A leaf stays a leaf. -/
  isLeaf : m.isLeaf = n.isLeaf
  /-- It has the same children. -/
  children : m.children = n.children
  /-- The same leaf follows. -/
  next : m.next = n.next
  /-- It has as many slots. -/
  length : m.values.length = n.values.length
  /-- A slot with a row identifier to delete is empty now. -/
  cleared : ∀ (i : Nat) (value : RowId), n.values[i]? = some value → value ∈ targets →
    m.values[i]? = some .tombstone
  /-- Every other slot is as it was. -/
  kept : ∀ (i : Nat) (value : RowId), n.values[i]? = some value → value ∉ targets →
    m.values[i]? = some value

theorem slotsCleared_clear (n : Node) (targets : List RowId) :
    n.SlotsCleared targets (n.clear targets) := by
  obtain ⟨id, keys, ⟨values, next⟩ | children⟩ := n
  · rw [clear_leaf]
    refine ⟨rfl, rfl, rfl, rfl, rfl, List.length_map _, ?_, ?_⟩
    all_goals
      intro i value hvalue htarget
      have hvalue : values[i]? = some value := hvalue
      show (values.map (RowId.cleared targets))[i]? = _
      rw [List.getElem?_map, hvalue, Option.map_some, RowId.cleared]
    · rw [if_pos (List.contains_iff_mem.2 htarget)]
    · rw [if_neg (mt List.contains_iff_mem.1 htarget)]
  · refine ⟨rfl, rfl, rfl, rfl, rfl, rfl, ?_, ?_⟩
    all_goals
      intro i value hvalue _
      cases hvalue

/-- **Nothing is left to clear** in a cleared node. -/
theorem countOf_clear {targets : List RowId} (hlive : .tombstone ∉ targets) (n : Node) :
    (n.clear targets).countOf targets = 0 := by
  obtain ⟨id, keys, ⟨values, next⟩ | children⟩ := n
  · rw [clear_leaf, countOf]
    refine List.countP_eq_zero.2 fun value hvalue => ?_
    obtain ⟨old, -, rfl⟩ := List.mem_map.1 hvalue
    rw [List.contains_iff_mem, RowId.cleared]
    split
    · exact hlive
    · rename_i hkept
      exact mt List.contains_iff_mem.2 hkept
  · rfl

end Node

namespace PageFile

open RowIndex.Action

variable {f g k : PageFile}

/-! ## (2) The pages around -/

/-- **Nothing is changed but the pages from `lo` on, and before `hi`.** -/
structure KeptOutside (lo hi : Nat) (f g : PageFile) : Prop where
  /-- The root and the page count stay. -/
  record : g.record = f.record
  /-- The file is as long as before. -/
  length : g.image.length = f.image.length
  /-- The same part of it is mapped. -/
  capacity : g.capacity = f.capacity
  /-- All other pages are the same, byte for byte. -/
  page : ∀ k, k < lo ∨ hi ≤ k → g.image.page k = f.image.page k

namespace KeptOutside

variable {lo mid hi : Nat}

theorem refl (lo hi : Nat) (f : PageFile) : KeptOutside lo hi f f :=
  ⟨rfl, rfl, rfl, fun _ _ => rfl⟩

theorem trans (h : KeptOutside lo mid f g) (h' : KeptOutside mid hi g k) (hlo : lo ≤ mid)
    (hhi : mid ≤ hi) : KeptOutside lo hi f k where
  record := h'.record.trans h.record
  length := h'.length.trans h.length
  capacity := h'.capacity.trans h.capacity
  page j hj := (h'.page j (by omega)).trans (h.page j (by omega))

/-- The other pages are read as before. -/
theorem readPage (h : KeptOutside lo hi f g) {p : PageId} (hp : p.index < lo ∨ hi ≤ p.index) :
    g.readPage p = f.readPage p :=
  readPage_congr_of_record h.record p fun _ => h.page p.index hp

end KeptOutside

/-- One page of a deletion changes that page at most. -/
theorem keptOutside_clearedAt (targets : List RowId) {i : Nat} {node : Node} (hi : i < 2147483648)
    (hread : f.readPage (PageId.ofIndex i) = .ok node) :
    KeptOutside i (i + 1) f (f.clearedAt targets node) := by
  rw [clearedAt]
  split
  · refine ⟨rfl, rfl, rfl, fun k hk => ?_⟩
    have hid : (node.clear targets).id.index = i := by
      rw [Node.id_clear, id_of_readPage hread, PageId.index_ofIndex hi]
    rw [page_withNode, hid, if_neg (by omega)]
  · exact .refl i (i + 1) f

/-- **Clearing a row of pages changes no others.** -/
theorem keptOutside_clearFrom (targets : List RowId) (f : PageFile) (count i cleared : Nat)
    (hbound : i + count ≤ 2147483648) :
    KeptOutside i (i + count) f ((clearFrom targets count i cleared).runOn f).2 := by
  induction count generalizing f i cleared with
  | zero => exact .refl i _ f
  | succ count ih =>
    cases hread : f.readPage (PageId.ofIndex i) with
    | error failure =>
      rw [clearFrom, runOn_bind, runOn_ask, hread]
      exact .refl i _ f
    | ok node =>
      rw [runOn_clearFrom_succ targets hread]
      have hrest := ih (f.clearedAt targets node) (i + 1) (cleared + node.countOf targets) (by omega)
      rw [show i + (count + 1) = i + 1 + count by omega]
      exact (keptOutside_clearedAt targets (by omega) hread).trans hrest (by omega) (by omega)

/-! ## (3) Pages that cannot be read -/

/-- **The first page that cannot be read**, and why. -/
structure FirstUnreadable (f : PageFile) (p : PageId) (failure : Failure) : Prop where
  /-- It is allocated. -/
  allocated : f.record.isAllocated p
  /-- It cannot be read. -/
  read : f.readPage p = .error failure
  /-- All pages before it can. -/
  before : ∀ q, f.record.isAllocated q → q.index < p.index → ∃ n, f.readPage q = .ok n

theorem exists_firstUnreadable (h : ¬ f.Readable) : ∃ p failure, f.FirstUnreadable p failure := by
  classical
  have hsome : ∃ j p, p.index = j ∧ f.record.isAllocated p ∧ ∀ n, f.readPage p ≠ .ok n := by
    rw [Readable] at h
    push Not at h
    obtain ⟨p, hp, hread⟩ := h
    exact ⟨p.index, p, rfl, hp, hread⟩
  obtain ⟨p, hindex, hp, hread⟩ := Nat.find_spec hsome
  cases hfailure : f.readPage p with
  | ok n => exact absurd hfailure (hread n)
  | error failure =>
    refine ⟨p, failure, hp, hfailure, fun q hq hlt => ?_⟩
    have hleast := Nat.find_min hsome (hindex ▸ hlt)
    push Not at hleast
    exact hleast q rfl hq

/-- **The pages that can be read come first**, and the deletion goes on behind them with what it has
counted. -/
theorem runOn_clearFrom_add (targets : List RowId) {count i : Nat} (cleared rest : Nat)
    (hbound : i + count ≤ 2147483648)
    (hread : ∀ j, i ≤ j → j < i + count → ∃ n, f.readPage (PageId.ofIndex j) = .ok n) :
    ∃ counted, (clearFrom targets count i cleared).runOn f
          = (.ok counted, ((clearFrom targets count i cleared).runOn f).2) ∧
      (clearFrom targets (count + rest) i cleared).runOn f =
        (clearFrom targets rest (i + count) counted).runOn
          ((clearFrom targets count i cleared).runOn f).2 := by
  induction count generalizing i cleared f with
  | zero => exact ⟨cleared, rfl, by rw [Nat.zero_add]; rfl⟩
  | succ count ih =>
    obtain ⟨node, hnode⟩ := hread i (Nat.le_refl i) (by omega)
    have hkept := keptOutside_clearedAt targets (by omega) hnode
    -- the later pages are not touched by the first
    have hlater : ∀ j, i + 1 ≤ j → j < i + 1 + count →
        ∃ n, (f.clearedAt targets node).readPage (PageId.ofIndex j) = .ok n := by
      intro j hle hlt
      rw [hkept.readPage (.inr (by rw [PageId.index_ofIndex (by omega)]; exact hle))]
      exact hread j (by omega) (by omega)
    obtain ⟨counted, hfront, hall⟩ := ih (cleared + node.countOf targets) (by omega) hlater
    refine ⟨counted, ?_, ?_⟩
    · rw [runOn_clearFrom_succ targets hnode]
      exact hfront
    · rw [show count + 1 + rest = count + rest + 1 by omega, runOn_clearFrom_succ targets hnode,
        runOn_clearFrom_succ targets hnode, hall, show i + (count + 1) = i + 1 + count by omega]

/-- **A deletion stops at the first page that cannot be read.** The pages before it are cleared, and no
other page is touched. -/
theorem deleteValues_stops {texts : List String} {p : PageId} {failure : Failure}
    (htargets : targetsOf texts ≠ []) (hfirst : f.FirstUnreadable p failure) :
    ∃ g, (deleteValues texts).runOn f = (.error failure, g) ∧ KeptOutside 1 p.index f g ∧
      ∀ q n, f.readPage q = .ok n → q.index < p.index →
        g.readPage q = .ok (n.clear (targetsOf texts)) := by
  obtain ⟨hone, hlt⟩ := Metadata.index_of_isAllocated hfirst.allocated
  have hmax := f.record.pages.toInt_lt
  have hcount : f.pageCount = f.record.pages.toInt.toNat := rfl
  have hlast : f.record.pageCount = f.record.pages.toInt.toNat := rfl
  have hself : PageId.ofIndex p.index = p :=
    PageId.ofIndex_index (Metadata.isValid_of_isAllocated hfirst.allocated)
  have hbefore : ∀ j, 1 ≤ j → j < 1 + (p.index - 1) →
      ∃ n, f.readPage (PageId.ofIndex j) = .ok n := by
    intro j hle hj
    refine hfirst.before _ (isAllocated_ofIndex hle (by omega)) ?_
    rw [PageId.index_ofIndex (by omega)]
    omega
  -- the pages before it, then itself and whatever comes behind
  have hsplit : f.pageCount - 1 = (p.index - 1) + ((f.pageCount - 1 - p.index) + 1) := by omega
  obtain ⟨counted, hfront, hall⟩ := runOn_clearFrom_add (targetsOf texts) 0
    ((f.pageCount - 1 - p.index) + 1) (by omega) hbefore
  obtain ⟨-, hcleared⟩ := clearFrom_cases (targetsOf texts) (p.index - 1) 1 0 f
  have hkept := keptOutside_clearFrom (targetsOf texts) f (p.index - 1) 1 0 (by omega)
  rw [show 1 + (p.index - 1) = p.index by omega] at hkept hall hcleared
  generalize ((clearFrom (targetsOf texts) (p.index - 1) 1 0).runOn f).2 = g at hfront hall hkept hcleared
  have hread : g.readPage p = .error failure := by
    rw [hkept.readPage (.inr (Nat.le_refl _)), hfirst.read]
  refine ⟨g, ?_, hkept, fun q n hn hq => ?_⟩
  · rw [deleteValues, if_neg (by rwa [List.isEmpty_iff]), runOn_bind, runOn_get]
    simp only
    rw [hsplit, hall, clearFrom, runOn_bind, runOn_ask, hself, hread]
  · have hallocated := isAllocated_of_readPage hn
    rw [hcleared counted (by rw [hfront]) q hallocated (Metadata.index_of_isAllocated hallocated).1 hq,
      hn]
    rfl

/-! ## (4) Deletions in any file -/

/-- **A deletion touches allocated pages only.** -/
theorem keptOutside_deleteValues (texts : List String) (f : PageFile) :
    KeptOutside 1 f.pageCount f ((deleteValues texts).runOn f).2 := by
  rw [deleteValues]
  split
  · exact .refl 1 _ f
  · rw [runOn_bind, runOn_get]
    have hmax := f.record.pages.toInt_lt
    have hcount : f.pageCount = f.record.pages.toInt.toNat := rfl
    simp only
    rcases Nat.eq_zero_or_pos f.pageCount with hzero | hpos
    · rw [hzero]
      exact .refl 1 0 f
    · have hkept := keptOutside_clearFrom (targetsOf texts) f (f.pageCount - 1) 1 0 (by omega)
      rwa [show 1 + (f.pageCount - 1) = f.pageCount by omega] at hkept

/-- **Where nothing is left to clear, a file is not touched.** -/
theorem runOn_clearFrom_of_count_eq_zero {targets : List RowId} {count i cleared : Nat}
    (h : ∀ j, i ≤ j → j < i + count →
      ∃ n, f.readPage (PageId.ofIndex j) = .ok n ∧ n.countOf targets = 0) :
    (clearFrom targets count i cleared).runOn f = (.ok cleared, f) := by
  induction count generalizing i cleared with
  | zero => rfl
  | succ count ih =>
    obtain ⟨node, hnode, hnone⟩ := h i (Nat.le_refl i) (by omega)
    rw [runOn_clearFrom_succ targets hnode, hnone, clearedAt, if_neg (by simpa using hnone)]
    exact ih fun j hle hlt => h j (by omega) (by omega)

/-- **A deletion that succeeded has nothing left to do.** -/
theorem deleteValues_again {texts : List String} {count : Nat}
    (hrun : (deleteValues texts).runOn f = (.ok count, g)) :
    (deleteValues texts).runOn g = (.ok 0, g) := by
  by_cases htargets : targetsOf texts = []
  · rw [deleteValues, htargets]
    rfl
  -- it succeeded, so all pages can be read
  have hreadable : f.Readable := by
    by_contra hunreadable
    obtain ⟨p, failure, hfirst⟩ := exists_firstUnreadable hunreadable
    obtain ⟨h, hstop, -⟩ := deleteValues_stops htargets hfirst
    rw [hrun] at hstop
    cases hstop
  have hkept := keptOutside_deleteValues texts f
  obtain ⟨-, hall⟩ := deleteValues_cases texts f
  rw [hrun] at hkept hall
  have hcount : g.pageCount = f.pageCount := congrArg Metadata.pageCount hkept.record
  rw [deleteValues, if_neg (by rwa [List.isEmpty_iff]), runOn_bind, runOn_get]
  refine runOn_clearFrom_of_count_eq_zero fun j hle hlt => ?_
  have hallocated := isAllocated_ofIndex (f := f) hle (by omega)
  obtain ⟨n, hn⟩ := hreadable _ hallocated
  refine ⟨n.clear (targetsOf texts), ?_, n.countOf_clear (tombstone_not_mem_targetsOf texts)⟩
  rw [hall count rfl _ hallocated, hn]
  rfl

/-- **What a deletion answers, changes and leaves**, in any file whatever. The row identifiers to delete
are those of the texts, the empty slot left out. Only allocated pages are changed. If all of them can be
read, the answer is the number of slots on them that hold one of the row identifiers, and exactly these
slots are cleared. Otherwise the answer is the failure of the first page that cannot be read, unless
there is nothing to look for: the slots on the pages before it are cleared, and all other pages are as
they were. After a deletion that succeeded the same deletion finds nothing, and touches nothing. -/
theorem deleteValues_exact (f : PageFile) (texts : List String) :
    ∃ result g, (deleteValues texts).runOn f = (result, g) ∧
      (∀ value, value ∈ targetsOf texts ↔
        ¬ value.isTombstone ∧ ∃ text ∈ texts, RowId.ofText text = value) ∧
      KeptOutside 1 f.pageCount f g ∧
      (f.Readable →
        result = .ok ((f.allocatedPages.map (f.countOn (targetsOf texts))).sum) ∧
        ∀ p n, f.readPage p = .ok n →
          ∃ m, g.readPage p = .ok m ∧ n.SlotsCleared (targetsOf texts) m) ∧
      (targetsOf texts ≠ [] → ¬ f.Readable →
        ∃ p failure, f.FirstUnreadable p failure ∧ result = .error failure ∧
          KeptOutside 1 p.index f g ∧
          (∀ q n, f.readPage q = .ok n → q.index < p.index →
            ∃ m, g.readPage q = .ok m ∧ n.SlotsCleared (targetsOf texts) m) ∧
          ∀ q, p.index ≤ q.index → g.readPage q = f.readPage q) ∧
      ∀ count, result = .ok count → (deleteValues texts).runOn g = (.ok 0, g) := by
  rcases hrun : (deleteValues texts).runOn f with ⟨result, g⟩
  refine ⟨result, g, rfl, fun value => mem_targetsOf, ?_, fun hreadable => ?_, ?_, ?_⟩
  · have hkept := keptOutside_deleteValues texts f
    rwa [hrun] at hkept
  · have hcount := deleteValues_count hreadable texts
    obtain ⟨-, hall⟩ := deleteValues_cases texts f
    rw [hrun] at hcount hall
    refine ⟨hcount, fun p n hn => ⟨_, ?_, n.slotsCleared_clear _⟩⟩
    rw [hall _ hcount p (isAllocated_of_readPage hn), hn]
    rfl
  · intro htargets hunreadable
    obtain ⟨p, failure, hfirst⟩ := exists_firstUnreadable hunreadable
    obtain ⟨h, hstop, hkept, hcleared⟩ := deleteValues_stops htargets hfirst
    obtain ⟨rfl, rfl⟩ := Prod.mk.inj (hrun.symm.trans hstop)
    exact ⟨p, failure, hfirst, rfl, hkept,
      fun q n hn hq => ⟨_, hcleared q n hn hq, n.slotsCleared_clear _⟩,
      fun q hq => hkept.readPage (.inr hq)⟩
  · rintro count rfl
    exact deleteValues_again hrun

end PageFile

end RowIndex
