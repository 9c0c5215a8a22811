import RowIndex.Proofs.PageOwners
import RowIndex.Proofs.StoredTexts
import Mathlib.Algebra.GroupWithZero.Nat

/-! # Scans for row identifiers

Searches for a row identifier and deletions go through all pages and compare slots; the other reads
follow the tree and show texts. In an index both see the same slots: the pages outside the tree hold
none, and every slot is the one that its text is stored in.

* **`clearFrom_count`**, `deleteValues_count` — a deletion counts the slots of all pages.
* **`Bare`** — a node without slots; `Tended.readable`, `Tended.holdsSlot_iff` for pages that are
  tended so.
* **`Tended.deleteValues`** — what a deletion answers and leaves behind.
* **`Tended.call`**, `Tended.afterCalls` — what one call keeps whatever its outcome, and a run.
* **`Shows`**, `Listed.shows_iff` — the texts that some read gives.
* **`scans_agree_with_reads`** — what is shown is found, and is deleted as shown. -/

namespace RowIndex

namespace PageFile

open RowIndex.Tree

variable {f g : PageFile} {height : Nat} {t : Tree}

/-! ## (1) Counting slots -/

/-- **How many slots of a page hold one of `targets`**; none of a page that cannot be read. -/
def countOn (f : PageFile) (targets : List RowId) (p : PageId) : Nat :=
  match f.readPage p with
  | .ok node => node.countOf targets
  | .error _ => 0

theorem countOn_of_readPage {targets : List RowId} {p : PageId} {node : Node}
    (h : f.readPage p = .ok node) : f.countOn targets p = node.countOf targets := by
  rw [countOn, h]

/-- **Clearing a row of pages that can be read** counts the slots on them. -/
theorem clearFrom_count (targets : List RowId) {count i cleared : Nat}
    (hbound : i + count ≤ 2147483648)
    (hread : ∀ j, i ≤ j → j < i + count → ∃ n, f.readPage (PageId.ofIndex j) = .ok n) :
    ((clearFrom targets count i cleared).runOn f).1 =
      .ok (cleared + (((List.range' i count).map PageId.ofIndex).map (f.countOn targets)).sum) := by
  induction count generalizing i cleared f with
  | zero => rfl
  | succ count ih =>
    obtain ⟨node, hnode⟩ := hread i (Nat.le_refl i) (by omega)
    have hhere : f.countOn targets (PageId.ofIndex i) = node.countOf targets :=
      countOn_of_readPage hnode
    -- the later pages are not touched by the first
    have hlater : ∀ j, i + 1 ≤ j → j < i + 1 + count →
        (f.clearedAt targets node).readPage (PageId.ofIndex j) = f.readPage (PageId.ofIndex j) := by
      intro j hle hlt
      rw [readPage_clearedAt targets hnode, if_neg]
      intro hsame
      have hindex := congrArg PageId.index hsame
      rw [PageId.index_ofIndex (by omega), PageId.index_ofIndex (by omega)] at hindex
      omega
    have hcounts : ((List.range' (i + 1) count).map PageId.ofIndex).map
          ((f.clearedAt targets node).countOn targets)
        = ((List.range' (i + 1) count).map PageId.ofIndex).map (f.countOn targets) := by
      rw [List.map_map, List.map_map]
      refine List.map_congr_left fun j hj => ?_
      obtain ⟨hle, hlt⟩ := List.mem_range'_1.1 hj
      simp only [Function.comp_apply, countOn, hlater j hle hlt]
    rw [runOn_clearFrom_succ targets hnode, ih (by omega) fun j hle hlt => by
      rw [hlater j hle hlt]
      exact hread j (by omega) (by omega), hcounts]
    rw [List.range'_succ, List.map_cons, List.map_cons, List.sum_cons, hhere, Nat.add_assoc]

/-- **A deletion counts the slots of all pages**, if they can all be read. -/
theorem deleteValues_count (hread : f.Readable) (texts : List String) :
    ((deleteValues texts).runOn f).1 =
      .ok ((f.allocatedPages.map (f.countOn (targetsOf texts))).sum) := by
  rw [deleteValues]
  split
  · -- without targets no slot is counted
    rename_i hempty
    have hnone : f.allocatedPages.map (f.countOn (targetsOf texts))
        = f.allocatedPages.map fun _ => 0 := by
      refine List.map_congr_left fun p _ => ?_
      rw [List.isEmpty_iff.1 hempty, countOn]
      split
      · exact List.countP_eq_zero.2 fun _ _ => Bool.false_ne_true
      · rfl
    rw [Action.runOn_pure, hnone, List.map_const', List.sum_replicate_nat, Nat.mul_zero]
  · rw [Action.runOn_bind, Action.runOn_get]
    have hmax := f.record.pages.toInt_lt
    have hcount : f.pageCount = f.record.pages.toInt.toNat := rfl
    refine (clearFrom_count (targetsOf texts) (by omega) fun j hle hlt =>
      hread _ (isAllocated_ofIndex hle (by omega))).trans ?_
    rw [Nat.zero_add]
    rfl

/-- **The slots on the pages of a tree** are those of its entries. -/
theorem Holds.sum_countOn (h : f.Holds t) (targets : List RowId) :
    (t.pages.map (f.countOn targets)).sum = t.entries.countP fun e => targets.contains e.2 := by
  have hcounts : t.pages.map (f.countOn targets)
      = t.subtrees.map (List.countP targets.contains ∘ fun s => s.node.values) := by
    rw [pages, List.map_map]
    exact List.map_congr_left fun s hs => countOn_of_readPage (h s hs)
  have hslots : t.entries.countP (fun e => targets.contains e.2)
      = (t.entries.map (·.2)).countP targets.contains := by
    rw [List.countP_map]
    rfl
  rw [hcounts, hslots, slots_eq_flatMap, List.countP_flatMap]

/-! ## (2) Pages outside the tree -/

/-- **A node without slots.** -/
def Bare (n : Node) : Prop :=
  n.values = []

theorem bare_overChild (id child : PageId) : Bare (Node.overChild id child) := rfl

theorem Bare.clear {n : Node} (h : Bare n) (targets : List RowId) : Bare (n.clear targets) := by
  obtain ⟨id, keys, ⟨values, next⟩ | children⟩ := n
  · have hvalues : values = [] := h
    rw [hvalues]
    rfl
  · rfl

namespace Tended

variable {L : List (Int32 × RowId)}

/-- All pages can be read. -/
theorem readable {spare : Node → Prop} (h : Tended spare f L) : f.Readable := by
  intro p hp
  cases h with
  | nothing hroot hpages =>
    rw [Metadata.isAllocated_iff] at hp
    omega
  | @tree height t hcarries hentries hspare =>
    by_cases hpt : p ∈ t.pages
    · obtain ⟨s, hs, rfl⟩ := List.mem_map.1 hpt
      exact ⟨_, hcarries.held s hs⟩
    · obtain ⟨n, hn, -⟩ := hspare p hp hpt
      exact ⟨n, hn⟩

/-- **The slots that pages hold are those of the entries.** -/
theorem holdsSlot_iff (h : Tended Bare f L) (value : RowId) :
    f.HoldsSlot value ↔ value ∈ L.map (·.2) := by
  cases h with
  | nothing hroot hpages =>
    refine iff_of_false ?_ List.not_mem_nil
    rintro ⟨p, n, hn, -⟩
    have hp := isAllocated_of_readPage hn
    rw [Metadata.isAllocated_iff] at hp
    omega
  | @tree height t hcarries hentries hspare =>
    rw [hcarries.held.holdsSlot_iff, or_iff_left]
    -- a page outside the tree holds no slot
    rintro ⟨p, hpt, n, hn, hmem⟩
    obtain ⟨m, hm, hbare⟩ := hspare p (isAllocated_of_readPage hn) hpt
    obtain rfl := Except.ok.inj (hn.symm.trans hm)
    rw [hbare] at hmem
    exact List.not_mem_nil hmem

/-- **All pages together hold the slots of the entries.** -/
theorem sum_countOn (h : Tended Bare f L) (targets : List RowId) :
    (f.allocatedPages.map (f.countOn targets)).sum = L.countP fun e => targets.contains e.2 := by
  cases h with
  | nothing hroot hpages =>
    have hcount : f.pageCount - 1 = 0 := by
      rw [pageCount, Metadata.pageCount, hpages]
      rfl
    rw [allocatedPages, hcount]
    rfl
  | @tree height t hcarries hentries hspare =>
    rw [← hcarries.held.sum_countOn targets]
    -- the allocated pages are those of the tree and those outside it
    have hsplit := List.filter_append_perm (fun p => decide (p ∈ t.pages)) f.allocatedPages
    have hinside : (f.allocatedPages.filter fun p => decide (p ∈ t.pages)).Perm t.pages := by
      refine (List.perm_ext_iff_of_nodup (f.nodup_allocatedPages.filter _)
        hcarries.nodup_pages).2 fun p => ?_
      rw [List.mem_filter, decide_eq_true_iff, mem_allocatedPages]
      exact and_iff_right_of_imp hcarries.held.isAllocated
    have houtside : ((f.allocatedPages.filter fun p => !decide (p ∈ t.pages)).map
        (f.countOn targets)).sum = 0 := by
      refine List.sum_eq_zero_iff_forall_eq_nat.2 fun n hn => ?_
      obtain ⟨p, hp, rfl⟩ := List.mem_map.1 hn
      rw [List.mem_filter, mem_allocatedPages, Bool.not_eq_true', decide_eq_false_iff_not] at hp
      obtain ⟨m, hm, hbare⟩ := hspare p hp.1 hp.2
      rw [countOn_of_readPage hm, Node.countOf, hbare]
      rfl
    rw [← (hsplit.map _).sum_nat, List.map_append, List.sum_append, houtside, Nat.add_zero,
      (hinside.map _).sum_nat]

/-- An insertion that succeeds adds its entry. -/
theorem inserted_entriesWith {spare : Node → Prop} (h : Tended spare f L) {key : Int32} {value : RowId}
    (hrun : (insertValue key value).runOn f = (.ok (), g)) :
    Tended spare g (entriesWith key value L) := by
  obtain ⟨front, back, rfl, hfront, hback, htended⟩ := h.inserted hrun
  rwa [entriesWith_of_divided hfront hback]

/-- **What a deletion answers and leaves behind**: it counts the entries with the wanted slots and
clears them. -/
theorem deleteValues (h : Tended Bare f L) (texts : List String) :
    ∃ g, (PageFile.deleteValues texts).runOn f
        = (.ok (L.countP fun e => (targetsOf texts).contains e.2), g) ∧
      Tended Bare g (L.map fun e => (e.1, e.2.cleared (targetsOf texts))) := by
  have hcount := deleteValues_count h.readable texts
  rw [h.sum_countOn] at hcount
  rcases hrun : (PageFile.deleteValues texts).runOn f with ⟨result, g⟩
  rw [hrun] at hcount
  obtain rfl : result = .ok _ := hcount
  exact ⟨g, rfl, h.deleted (fun _ targets hbare => hbare.clear targets) hrun⟩

/-! ## (3) Runs of calls -/

/-- **A call keeps the pages tended, whatever its outcome.** -/
theorem call (h : Tended Bare f L) (hinUse : f.InUse) (c : Call) :
    ∃ L', Tended Bare (f.call c).2 L' ∧ (L' = L ∨ c.Changes L L') := by
  rcases hrun : f.call c with ⟨failure | ok, g⟩
  · cases c with
    | insert key text => exact ⟨L, h.failed (fun p => bare_overChild p _) hrun, Or.inl rfl⟩
    | deleteValues texts =>
      -- all pages can be read, so a deletion does not fail
      obtain ⟨k, hdelete, -⟩ := h.deleteValues texts
      rw [PageFile.call, hdelete] at hrun
      cases hrun
    | save =>
      rw [PageFile.call, runOn_flush] at hrun
      split at hrun
      · cases hrun
      · cases hrun
        exact ⟨L, h.congr (record_storeRecord f) (readPage_storeRecord f), Or.inl rfl⟩
    | reopen saved sizing =>
      have hreopened := h.reopened hinUse saved sizing
      rw [hrun] at hreopened
      exact ⟨L, hreopened, Or.inl rfl⟩
  · obtain ⟨L', htended, hchanges⟩ :=
      h.succeeded hinUse (fun _ targets hbare => hbare.clear targets) hrun
    exact ⟨L', htended, Or.inr hchanges⟩

end Tended

end PageFile

/-- **What a call makes of the entries** keeps every slot the one that its text is stored in. -/
theorem Call.Changes.isStored {c : Call} {L L' : List (Int32 × RowId)} (hc : c.Changes L L')
    (h : ∀ e ∈ L, e.2.IsStored) : ∀ e ∈ L', e.2.IsStored := by
  cases hc with
  | insert =>
    intro e he
    rcases List.mem_append.1 he with he | he
    · exact h e (List.mem_append_left _ he)
    rcases List.mem_cons.1 he with rfl | he
    · exact RowId.isStored_ofText _
    · exact h e (List.mem_append_right _ he)
  | deleteValues =>
    intro e he
    obtain ⟨d, hd, rfl⟩ := List.mem_map.1 he
    exact RowId.isStored_cleared (h d hd) _
  | save => exact h
  | reopen => exact h

namespace PageFile

open RowIndex.Tree

variable {f g : PageFile} {L : List (Int32 × RowId)}

/-- **In a run of calls, whatever becomes of each,** the pages stay tended, and every slot is the one
that its text is stored in. -/
theorem Tended.afterCalls (h : Tended Bare f L) (hinUse : f.InUse) (hstored : ∀ e ∈ L, e.2.IsStored)
    (calls : List Call) :
    ∃ L', Tended Bare (f.afterCalls calls) L' ∧ ∀ e ∈ L', e.2.IsStored := by
  induction calls generalizing f L with
  | nil => exact ⟨L, h, hstored⟩
  | cons c calls ih =>
    obtain ⟨L', htended, rfl | hchanges⟩ := h.call hinUse c
    · exact ih htended (hinUse.call c) hstored
    · exact ih htended (hinUse.call c) (hchanges.isStored hstored)

/-! ## (4) Texts that are shown -/

/-- **A read gives the text**: a search, a range, or the list of all entries. -/
def Shows (f : PageFile) (text : String) : Prop :=
  (∃ key found, f.search key = .ok found ∧ text ∈ found) ∨
    (∃ low high found, f.range low high = .ok found ∧ text ∈ found.map (·.2)) ∨
      ∃ found, f.entries = .ok found ∧ text ∈ found.map (·.2)

/-- The texts that searches give are those of the live entries. -/
theorem Lists.exists_search_iff (h : f.Lists L) (text : String) :
    (∃ key found, f.search key = .ok found ∧ text ∈ found) ↔
      ∃ e ∈ L, isLive e ∧ e.2.text = text := by
  constructor
  · rintro ⟨key, found, hfound, hmem⟩
    rw [h.search_eq] at hfound
    obtain rfl := Except.ok.inj hfound
    obtain ⟨e, he, htext⟩ := List.mem_map.1 hmem
    obtain ⟨hL, hwanted⟩ := List.mem_filter.1 he
    exact ⟨e, hL, (Bool.and_eq_true_iff.1 hwanted).2, htext⟩
  · rintro ⟨e, he, hlive, htext⟩
    refine ⟨e.1, _, h.search_eq e.1, List.mem_map.2 ⟨e, List.mem_filter.2 ⟨he, ?_⟩, htext⟩⟩
    rw [hlive, Bool.and_true, beq_iff_eq]

/-- **The texts that are shown** are those of the live entries. -/
theorem Lists.shows_iff (h : f.Lists L) (text : String) :
    f.Shows text ↔ ∃ e ∈ L, isLive e ∧ e.2.text = text := by
  constructor
  · rintro (hsearch | ⟨low, high, found, hfound, hmem⟩ | ⟨found, hfound, hmem⟩)
    · exact (h.exists_search_iff text).1 hsearch
    · rw [h.range_eq] at hfound
      obtain rfl := Except.ok.inj hfound
      rw [List.map_map] at hmem
      obtain ⟨e, he, htext⟩ := List.mem_map.1 hmem
      obtain ⟨hL, hwanted⟩ := List.mem_filter.1 he
      exact ⟨e, hL, (Bool.and_eq_true_iff.1 hwanted).2, htext⟩
    · rw [h.entries_eq] at hfound
      obtain rfl := Except.ok.inj hfound
      rw [List.map_map] at hmem
      obtain ⟨e, he, htext⟩ := List.mem_map.1 hmem
      obtain ⟨hL, hlive⟩ := List.mem_filter.1 he
      exact ⟨e, hL, hlive, htext⟩
  · exact fun hlive => Or.inl ((h.exists_search_iff text).2 hlive)

/-- **A search for a row identifier finds just what searches show.** -/
theorem Tended.contains_iff (h : Tended Bare f L) (hstored : ∀ e ∈ L, e.2.IsStored)
    (text : String) :
    f.contains text = .ok true ↔
      (RowId.ofText text).text ≠ "" ∧
        ∃ key found, f.search key = .ok found ∧ (RowId.ofText text).text ∈ found := by
  have hslot := RowId.isStored_ofText text
  rw [contains_eq_ok_iff h.readable, iff_true_left rfl, h.holdsSlot_iff, h.lists.exists_search_iff,
    ← hslot.text_eq_empty_iff]
  refine and_congr_right fun hne => ?_
  rw [hslot.text_eq_empty_iff] at hne
  rw [List.mem_map]
  constructor
  · rintro ⟨e, he, hvalue⟩
    refine ⟨e, he, ?_, by rw [hvalue]⟩
    rw [isLive, hvalue, Bool.not_eq_true']
    exact eq_false_of_ne_true hne
  · rintro ⟨e, he, -, htext⟩
    exact ⟨e, he, (hstored e he).eq_of_text_eq hslot htext⟩

/-! ## (5) Deleting what is shown -/

/-- **What is left after a text was deleted**: no read gives it, and all other answers are as
before. -/
structure Without (text : String) (f g : PageFile) : Prop where
  /-- No read gives the text. -/
  shows : ¬ g.Shows text
  /-- It is found nowhere. -/
  contains : g.contains text = .ok false
  /-- All other entries are as before. -/
  entries : ∃ found, f.entries = .ok found ∧ g.entries = .ok (found.filter (·.2 ≠ text))
  /-- Searches give the other texts as before. -/
  search : ∀ key, ∃ found, f.search key = .ok found ∧ g.search key = .ok (found.filter (· ≠ text))
  /-- Ranges give the other entries as before. -/
  range : ∀ low high, ∃ found,
    f.range low high = .ok found ∧ g.range low high = .ok (found.filter (·.2 ≠ text))

/-- **A view of the live entries after a deletion** is the one from before without what was
cleared. -/
theorem view_cleared {α : Type} {targets : List RowId} (view : Int32 × RowId → α) (kept : α → Bool)
    (hkept : ∀ e ∈ L, kept (view e) = !targets.contains e.2) (wanted : Int32 × RowId → Bool)
    (hwanted : ∀ e, wanted (e.1, e.2.cleared targets) = wanted e) :
    ((L.map fun e => (e.1, e.2.cleared targets)).filter fun e => wanted e && isLive e).map view
      = ((L.filter fun e => wanted e && isLive e).map view).filter kept := by
  rw [filter_map_cleared targets wanted hwanted, List.filter_map]
  refine congrArg (List.map view) (List.filter_congr fun e he => ?_)
  exact (hkept e (List.mem_filter.1 he).1).symm

/-- The slots to clear for a text that is shown. -/
theorem contains_targetsOf_singleton {text : String} {e : Int32 × RowId}
    (hshown : ¬ (RowId.ofText text).isTombstone) (hself : (RowId.ofText text).text = text)
    (hstored : e.2.IsStored) : (targetsOf [text]).contains e.2 = decide (e.2.text = text) := by
  have htargets : targetsOf [text] = [RowId.ofText text] := by
    rw [targetsOf, List.map_singleton, List.filter_cons_of_pos (by simpa using hshown),
      List.filter_nil]
  rw [htargets, Bool.eq_iff_iff, List.contains_iff_mem, List.mem_singleton, decide_eq_true_iff]
  constructor
  · rintro hvalue
    rw [hvalue, hself]
  · exact fun htext => hstored.eq_of_text_eq (RowId.isStored_ofText text) (htext.trans hself.symm)

/-- **Where the slots with the text are cleared**, the text is gone, and all else is as before. -/
theorem Lists.without {text : String} {targets : List RowId} (hf : f.Lists L)
    (hg : g.Lists (L.map fun e => (e.1, e.2.cleared targets)))
    (htargets : ∀ e ∈ L, targets.contains e.2 = decide (e.2.text = text))
    (hcontains : g.contains text = .ok true → g.Shows text)
    (hanswers : ∃ found, g.contains text = .ok found) : Without text f g := by
  have hkept : ∀ e ∈ L, decide (e.2.text ≠ text) = !targets.contains e.2 := by
    intro e he
    rw [htargets e he, decide_not]
  have hgone : ¬ g.Shows text := by
    rw [hg.shows_iff]
    rintro ⟨e, he, hlive, htext⟩
    obtain ⟨c, hc, rfl⟩ := List.mem_map.1 he
    rw [isLive_cleared, Bool.and_eq_true, Bool.not_eq_true'] at hlive
    -- what is live was not cleared, and has another text
    have hother := hlive.2
    rw [htargets c hc, decide_eq_false_iff_not] at hother
    rw [RowId.cleared, hlive.2, if_neg Bool.false_ne_true] at htext
    exact hother htext
  refine ⟨hgone, ?_, ⟨_, hf.entries_eq, ?_⟩, fun key => ⟨_, hf.search_eq key, ?_⟩,
    fun low high => ⟨_, hf.range_eq low high, ?_⟩⟩
  · obtain ⟨found | found, hfound⟩ := hanswers
    · exact hfound
    · exact absurd (hcontains hfound) hgone
  · have hview := view_cleared shown (fun e => e.2 ≠ text) hkept (fun _ => true) fun _ => rfl
    simp only [Bool.true_and] at hview
    rw [hg.entries_eq, ← hview]
  · have hview := view_cleared (fun e => e.2.text) (· ≠ text) hkept (fun e => e.1 == key) fun _ => rfl
    rw [hg.search_eq, ← hview]
  · have hview := view_cleared shown (fun e => e.2 ≠ text) hkept
      (fun e => low ≤ e.1 && e.1 ≤ high) fun _ => rfl
    rw [hg.range_eq, ← hview]

/-- **A text that is shown can be deleted as shown.** -/
theorem Tended.deleted_as_shown (h : Tended Bare f L) (hstored : ∀ e ∈ L, e.2.IsStored)
    {text : String} (hshown : f.Shows text) :
    f.contains text = .ok true ∧ ∃ found g, f.entries = .ok found ∧
      (PageFile.deleteValues [text]).runOn f = (.ok (found.countP (·.2 = text)), g) ∧
      Without text f g := by
  obtain ⟨d, hd, hlive, rfl⟩ := (h.lists.shows_iff text).1 hshown
  -- the text that is shown is stored in the slot that shows it
  have hslot : RowId.ofText d.2.text = d.2 := hstored d hd
  have htombstone : ¬ (RowId.ofText d.2.text).isTombstone := by
    rw [hslot]
    simpa [isLive] using hlive
  have hself : (RowId.ofText d.2.text).text = d.2.text := by rw [hslot]
  have htargets : ∀ e ∈ L, (targetsOf [d.2.text]).contains e.2 = decide (e.2.text = d.2.text) :=
    fun e he => contains_targetsOf_singleton htombstone hself (hstored e he)
  have hne : (RowId.ofText d.2.text).text ≠ "" := by
    rw [ne_eq, (RowId.isStored_ofText _).text_eq_empty_iff]
    exact htombstone
  obtain ⟨g, hrun, hafter⟩ := h.deleteValues [d.2.text]
  have hstored' : ∀ e ∈ L.map fun e => (e.1, e.2.cleared (targetsOf [d.2.text])), e.2.IsStored :=
    Call.Changes.deleteValues.isStored hstored
  -- every slot that was counted is that of an entry that was shown
  have hcount : L.countP (fun e => (targetsOf [d.2.text]).contains e.2)
      = ((L.filter isLive).map shown).countP (·.2 = d.2.text) := by
    rw [List.countP_map, List.countP_filter]
    refine List.countP_congr fun e he => ?_
    rw [htargets e he, Function.comp_apply, Bool.and_eq_true, shown]
    refine ⟨fun htext => ⟨htext, ?_⟩, And.left⟩
    rw [isLive, (hstored e he).eq_of_text_eq (hstored d hd) (of_decide_eq_true htext)]
    exact hlive
  rw [hcount] at hrun
  refine ⟨?_, _, g, h.lists.entries_eq, hrun, h.lists.without hafter.lists htargets ?_ ?_⟩
  · rw [h.contains_iff hstored, hself]
    exact ⟨hself ▸ hne, (h.lists.exists_search_iff _).2 ⟨d, hd, hlive, rfl⟩⟩
  · intro hfound
    rw [hafter.contains_iff hstored', hself] at hfound
    exact Or.inl hfound.2
  · exact exists_contains hafter.readable _

/-- **Scans and reads agree, and what is shown can be deleted as shown.** After any run of calls on a
new index, whatever becomes of each, a search for a row identifier answers, and it finds a text just if
the text that is stored for it is not empty and some search by key gives it. Every text that a read
gives is found; deleting it counts its occurrences among the entries and leaves all others. -/
theorem scans_agree_with_reads {host : Host} {path : String} {sizing : Sizing} {calls : List Call}
    (hcreate : create host path sizing = .ok f) (hrun : f.afterCalls calls = g) :
    (∀ text, (∃ found, g.contains text = .ok found) ∧
      (g.contains text = .ok true ↔ (RowId.ofText text).text ≠ "" ∧
        ∃ key found, g.search key = .ok found ∧ (RowId.ofText text).text ∈ found)) ∧
    ∀ text, g.Shows text → g.contains text = .ok true ∧
      ∃ found h, g.entries = .ok found ∧
        (deleteValues [text]).runOn g = (.ok (found.countP (·.2 = text)), h) ∧ Without text g h := by
  have hempty : Tended Bare f [] := .create hcreate
  obtain ⟨L, htended, hstored⟩ := hempty.afterCalls (inUse_create hcreate) (by simp) calls
  rw [hrun] at htended
  exact ⟨fun text => ⟨exists_contains htended.readable text, htended.contains_iff hstored text⟩,
    fun text hshown => htended.deleted_as_shown hstored hshown⟩

theorem scans_agree_with_reads_newFile :
    ∃ g t, newFile.afterCalls splittingCalls = g ∧ g.Carries 1 t ∧ g.search 7 = .ok ["seven"] ∧
      g.contains "seven" = .ok true ∧
      ∃ found h, g.entries = .ok found ∧
        (deleteValues ["seven"]).runOn g = (.ok (found.countP (·.2 = "seven")), h) ∧
          h.search 7 = .ok [] ∧ h.contains "seven" = .ok false := by
  obtain ⟨-, g, t, -, -, hafter, hg⟩ := exists_afterAll_splittingCalls
  have hrun := afterCalls_of_afterAll hafter
  obtain ⟨-, hshown⟩ := scans_agree_with_reads create_newFile hrun
  obtain ⟨L, hlists, htells⟩ :=
    (lists_create create_newFile).afterAll (inUse_create create_newFile) Tells.nil hafter
  have hsearch := hlists.search_eq_textsUnder htells 7
  rw [← remembered, textsUnder_splittingCalls, RowId.text_ofText "seven"] at hsearch
  obtain ⟨hcontains, found, h, hfound, hdelete, hwithout⟩ :=
    hshown "seven" (Or.inl ⟨7, _, hsearch, List.mem_singleton_self _⟩)
  obtain ⟨found', hfound', hsearch'⟩ := hwithout.search 7
  obtain rfl := Except.ok.inj (hfound'.symm.trans hsearch)
  exact ⟨g, t, hrun, hg, hsearch, hcontains, found, h, hfound, hdelete, hsearch', hwithout.contains⟩

end PageFile

end RowIndex
