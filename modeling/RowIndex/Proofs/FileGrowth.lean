import RowIndex.Proofs.PageStore
import RowIndex.Proofs.Reopening

/-! # How a file grows

A file grows only when a page is allocated for which there is no room, and then past the need by the
headroom of its sizing. So it never gets shorter, is never much longer than its pages need, and does not
grow again before the headroom is used up.

* **`GrowthStep`** — what a call on the pages does to the mapped length and to the page count.
* **`Sized`** — what is true of the lengths of a file from its creation on; `Sized.pageCall` for one call
  and `Sized.afterPageCalls` for a run.
* **`exists_pageCalls`** — whatever is done with an index comes to a run of calls on the pages.
* **`Sized.capacity_lt_of_full`** — the room that a file has is used up page by page.
* **`file_growth`** — growth is sufficient, bounded, aligned, and spaced. -/

namespace RowIndex

open RowIndex.Action

/-! ## (1) One call -/

/-- **A call that opens a file again does so with the given sizing.** -/
def PageCall.SizedAs (sizing : Sizing) : PageCall → Prop
  | .reopen _ s => s = sizing
  | _ => True

namespace PageFile

variable {f g : PageFile} {sizing : Sizing}

/-- **Whether a call allocates a page.** -/
def allocates (f : PageFile) (c : PageCall) : Bool :=
  (f.pageCall c).1.toOption.join.isSome

/-- **What a call does to the mapped length and to the page count.** -/
inductive GrowthStep (f : PageFile) (c : PageCall) : Prop
  /-- A page is allocated where there is room for it. -/
  | filled : f.allocates c → f.neededLength ≤ f.capacity →
      (f.pageCall c).2.capacity = f.capacity → (f.pageCall c).2.pageCount = f.pageCount + 1 →
        GrowthStep f c
  /-- There was no room, and the file has grown by the headroom past the allocated page. -/
  | grown : f.allocates c → f.capacity < f.neededLength →
      (f.pageCall c).2.capacity = f.grownLength → (f.pageCall c).2.pageCount = f.pageCount + 1 →
        GrowthStep f c
  /-- There was no room, and the file has grown, but it has no number for another page. -/
  | overgrown : (f.pageCall c).1 = .error (.fault .pageCountOverflow) →
      f.record.pages = Int32.maxValue → f.capacity < f.neededLength →
      (f.pageCall c).2.capacity = f.grownLength → (f.pageCall c).2.pageCount = f.pageCount →
        GrowthStep f c
  /-- No page is allocated, and the file does not grow. -/
  | kept : ¬ f.allocates c → (f.pageCall c).2.capacity = f.capacity →
      (f.pageCall c).2.pageCount = f.pageCount → GrowthStep f c

/-- **The mapped length of a file that got room for a page**, or did not. -/
theorem capacity_withRoom_cases (f : PageFile) :
    (∃ g, f.withRoom = (.ok (), g) ∧
      (f.neededLength ≤ f.capacity ∧ g.capacity = f.capacity ∨
        f.capacity < f.neededLength ∧ g.capacity = f.grownLength)) ∨
      ∃ failure g, f.withRoom = (.error failure, g) ∧ g.capacity = f.capacity := by
  unfold withRoom
  by_cases hfits : f.neededLength ≤ f.capacity
  · rw [if_pos hfits]
    exact .inl ⟨f, rfl, .inl ⟨hfits, rfl⟩⟩
  rw [if_neg hfits]
  split
  · exact .inr ⟨_, _, rfl, rfl⟩
  · split
    · split
      · exact .inl ⟨_, rfl, .inr ⟨Nat.lt_of_not_le hfits, rfl⟩⟩
      · exact .inr ⟨_, _, rfl, rfl⟩
    · exact .inr ⟨_, _, rfl, rfl⟩

theorem growthStep_allocate (h : f.InUse) : GrowthStep f .allocate := by
  have hstep := h.pageStep_allocate
  have hrecord := record_withRoom f
  have hcall : f.pageCall .allocate = ((allocate.runOn f).1.map some, (allocate.runOn f).2) := rfl
  rw [runOn_allocate] at hcall
  rcases capacity_withRoom_cases f with ⟨g, hroom, hcapacity⟩ | ⟨failure, g, hroom, hcapacity⟩
  · rw [hroom] at hcall hrecord
    by_cases hlast : f.record.pages = Int32.maxValue
    · simp only [if_pos hlast] at hcall
      have hcount : (f.pageCall .allocate).2.pageCount = f.pageCount := by
        rw [hcall]
        exact congrArg Metadata.pageCount hrecord
      rcases hcapacity with ⟨hneeded, hcapacity⟩ | ⟨hneeded, hcapacity⟩
      · refine .kept ?_ (by rw [hcall]; exact hcapacity) hcount
        rw [allocates, hcall]
        exact Bool.false_ne_true
      · exact .overgrown (by rw [hcall]; rfl) hlast hneeded (by rw [hcall]; exact hcapacity) hcount
    · simp only [if_neg hlast] at hcall
      rw [hcall] at hstep
      have hallocates : f.allocates .allocate := by
        rw [allocates, hcall]
        rfl
      have hcount : g.withFreshPage.pageCount = f.pageCount + 1 := by
        cases hstep
        assumption
      rcases hcapacity with ⟨hneeded, hcapacity⟩ | ⟨hneeded, hcapacity⟩
      · exact .filled hallocates hneeded (by rw [hcall]; exact hcapacity) (by rw [hcall]; exact hcount)
      · exact .grown hallocates hneeded (by rw [hcall]; exact hcapacity) (by rw [hcall]; exact hcount)
  · rw [hroom] at hcall hrecord
    refine .kept ?_ (by rw [hcall]; exact hcapacity) ?_
    · rw [allocates, hcall]
      exact Bool.false_ne_true
    · rw [hcall, pageCount, pageCount, hrecord]

/-- A file that is left behind is as long as before. -/
theorem capacity_leftBehind (f : PageFile) (saved : Bool) :
    (f.leftBehind saved).capacity = f.capacity := by
  rw [leftBehind, released]
  split
  · rfl
  · split <;> rfl

theorem sizing_leftBehind (f : PageFile) (saved : Bool) :
    (f.leftBehind saved).sizing = f.sizing := by
  rw [leftBehind, released]
  split
  · rfl
  · split <;> rfl

/-- **A settled file is opened again as it is**, or is left behind because it cannot be mapped. -/
theorem Settled.call_reopen_cases (h : f.Settled) (saved : Bool) (sizing : Sizing) :
    f.host.maps f.image.length ∧
        f.call (.reopen saved sizing) = (.ok (), { f with sizing := sizing, dirty := false }) ∨
      ∃ failure, f.call (.reopen saved sizing) = (.error failure, f.leftBehind saved) := by
  rw [PageFile.call]
  split
  · rename_i g hopen
    have hlength := (openImage_eq_ok_iff.1 hopen).2.1
    rw [length_image_leftBehind] at hlength
    rw [h.openImage_leftBehind hlength] at hopen
    rw [← Except.ok.inj hopen]
    exact .inl ⟨hlength, rfl⟩
  · exact .inr ⟨_, rfl⟩

/-! ## (2) The lengths of a file -/

/-- **What is true of the lengths of a file** with the given sizing, from its creation on. -/
structure Sized (sizing : Sizing) (f : PageFile) : Prop where
  /-- It is settled. -/
  settled : f.Settled
  /-- It has the sizing. -/
  own : f.sizing = sizing
  /-- Whole pages are mapped. -/
  whole : Layout.pageSize ∣ f.capacity

/-- Making room keeps the sizing. -/
theorem sizing_withRoom (f : PageFile) : f.withRoom.2.sizing = f.sizing := by
  simp only [withRoom]
  repeat' split
  all_goals rfl

/-- A write changes no length, no count and no sizing. -/
theorem lengths_writePage (node : Node) (f : PageFile) :
    ((writePage node).runOn f).2.capacity = f.capacity ∧
      ((writePage node).runOn f).2.pageCount = f.pageCount ∧
      ((writePage node).runOn f).2.sizing = f.sizing := by
  rw [runOn_writePage]
  split
  · cases node.check <;> exact ⟨rfl, rfl, rfl⟩
  · exact ⟨rfl, rfl, rfl⟩

/-- Nor does another root. -/
theorem lengths_setRoot (root : PageId) (f : PageFile) :
    ((PageFile.setRoot root).runOn f).2.capacity = f.capacity ∧
      ((PageFile.setRoot root).runOn f).2.pageCount = f.pageCount ∧
      ((PageFile.setRoot root).runOn f).2.sizing = f.sizing := by
  rw [runOn_setRoot]
  split <;> exact ⟨rfl, rfl, rfl⟩

/-- Nor does a flush, whatever becomes of it. -/
theorem lengths_flush (f : PageFile) :
    (flush.runOn f).2.capacity = f.capacity ∧ (flush.runOn f).2.pageCount = f.pageCount ∧
      (flush.runOn f).2.sizing = f.sizing := by
  rw [runOn_flush]
  split <;> exact ⟨rfl, rfl, rfl⟩

/-- **A call keeps a file settled, and its sizing.** -/
theorem Settled.pageCall (h : f.Settled) {c : PageCall} (hc : c.SizedAs f.sizing) :
    (f.pageCall c).2.Settled ∧ (f.pageCall c).2.sizing = f.sizing := by
  cases c with
  | allocate =>
    refine ⟨keeps_allocate_settled f h, ?_⟩
    show (PageFile.allocate.runOn f).2.sizing = f.sizing
    have hsizing := sizing_withRoom f
    rw [runOn_allocate]
    rcases hroom : f.withRoom with ⟨failure | ok, g⟩
    · rwa [hroom] at hsizing
    · rw [hroom] at hsizing
      simp only
      split <;> exact hsizing
  | write node => exact ⟨keeps_writePage_settled node f h, (lengths_writePage node f).2.2⟩
  | setRoot root => exact ⟨keeps_setRoot_settled root f h, (lengths_setRoot root f).2.2⟩
  | flush => exact ⟨keeps_flush_settled f h, (lengths_flush f).2.2⟩
  | reopen saved s =>
    obtain rfl : s = f.sizing := hc
    rw [PageFile.pageCall]
    rcases h.call_reopen_cases saved f.sizing with ⟨hlength, hcall⟩ | ⟨failure, hcall⟩ <;> rw [hcall]
    · exact ⟨h.reopened hlength f.path f.sizing, rfl⟩
    · exact ⟨h.leftBehind saved, sizing_leftBehind f saved⟩

/-- A call that answers no page allocates none. -/
theorem not_allocates_of_map {α : Type} (result : Except Failure α) :
    ¬ (result.map fun _ => (none : Option PageId)).toOption.join.isSome := by
  cases result <;> exact Bool.false_ne_true

/-- **What a call does to the lengths of a settled file.** -/
theorem Settled.growthStep (h : f.Settled) (c : PageCall) : GrowthStep f c := by
  cases c with
  | allocate => exact growthStep_allocate h.inUse
  | write node =>
    obtain ⟨hcapacity, hcount, -⟩ := lengths_writePage node f
    exact .kept (not_allocates_of_map _) hcapacity hcount
  | setRoot root =>
    obtain ⟨hcapacity, hcount, -⟩ := lengths_setRoot root f
    exact .kept (not_allocates_of_map _) hcapacity hcount
  | flush =>
    obtain ⟨hcapacity, hcount, -⟩ := lengths_flush f
    exact .kept (not_allocates_of_map _) hcapacity hcount
  | reopen saved s =>
    have hkept : (f.call (.reopen saved s)).2.capacity = f.capacity ∧
        (f.call (.reopen saved s)).2.record = f.record := by
      rcases h.call_reopen_cases saved s with ⟨-, hcall⟩ | ⟨failure, hcall⟩ <;> rw [hcall]
      · exact ⟨rfl, rfl⟩
      · exact ⟨capacity_leftBehind f saved, record_leftBehind f saved⟩
    exact .kept (not_allocates_of_map _) hkept.1 (congrArg Metadata.pageCount hkept.2)

/-- The length to which a file grows. -/
theorem Sized.grownLength_eq (h : Sized sizing f) :
    f.grownLength = (f.pageCount + 1) * Layout.pageSize + sizing.growthIncrement.toNat := by
  rw [grownLength, neededLength, h.own]

/-- **A call keeps what is true of the lengths.** -/
theorem Sized.pageCall (h : Sized sizing f) (hgrowth : Layout.pageSize ∣ sizing.growthIncrement.toNat)
    {c : PageCall} (hc : c.SizedAs sizing) : Sized sizing (f.pageCall c).2 := by
  rw [← h.own] at hc
  obtain ⟨hsettled, hsizing⟩ := h.settled.pageCall hc
  have hgrown : Layout.pageSize ∣ f.grownLength := by
    rw [h.grownLength_eq]
    exact Nat.dvd_add (Nat.dvd_mul_left _ _) hgrowth
  refine ⟨hsettled, hsizing.trans h.own, ?_⟩
  cases h.settled.growthStep c with
  | filled _ _ hcapacity _ => rw [hcapacity]; exact h.whole
  | grown _ _ hcapacity _ => rwa [hcapacity]
  | overgrown _ _ _ hcapacity _ => rwa [hcapacity]
  | kept _ hcapacity _ => rw [hcapacity]; exact h.whole

/-- **A call never shortens a file.** -/
theorem Settled.capacity_le_pageCall (h : f.Settled) (c : PageCall) :
    f.capacity ≤ (f.pageCall c).2.capacity := by
  cases h.growthStep c with
  | filled _ _ hcapacity _ => exact Nat.le_of_eq hcapacity.symm
  | grown _ hneeded hcapacity _ =>
    rw [hcapacity, grownLength]
    omega
  | overgrown _ _ hneeded hcapacity _ =>
    rw [hcapacity, grownLength]
    omega
  | kept _ hcapacity _ => exact Nat.le_of_eq hcapacity.symm

/-! ## (3) Runs -/

/-- **In a run of calls** the file stays as its sizing has it, and is never shortened. -/
theorem Sized.afterPageCalls (h : Sized sizing f) (hgrowth : Layout.pageSize ∣ sizing.growthIncrement.toNat)
    {calls : List PageCall} (hcalls : ∀ c ∈ calls, c.SizedAs sizing) :
    Sized sizing (f.afterPageCalls calls) ∧ f.capacity ≤ (f.afterPageCalls calls).capacity := by
  induction calls generalizing f with
  | nil => exact ⟨h, Nat.le_refl _⟩
  | cons c calls ih =>
    obtain ⟨hsized, hle⟩ := ih (h.pageCall hgrowth (hcalls c List.mem_cons_self)) fun d hd =>
      hcalls d (List.mem_cons_of_mem c hd)
    exact ⟨hsized, Nat.le_trans (h.settled.capacity_le_pageCall c) hle⟩

/-- A call more. -/
theorem afterPageCalls_append (f : PageFile) (calls later : List PageCall) :
    f.afterPageCalls (calls ++ later) = (f.afterPageCalls calls).afterPageCalls later :=
  List.foldl_append

/-- **The file `g` comes from `f` by a run of calls on the pages**, all with the sizing of `f`. -/
def ByPageCalls (f g : PageFile) : Prop :=
  g.sizing = f.sizing ∧ ∃ calls, (∀ c ∈ calls, c.SizedAs f.sizing) ∧ f.afterPageCalls calls = g

theorem ByPageCalls.refl (f : PageFile) : ByPageCalls f f :=
  ⟨rfl, [], by simp, rfl⟩

/-- One call more. -/
theorem ByPageCalls.step (h : ByPageCalls f g) (c : PageCall) (hc : c.SizedAs f.sizing)
    (hsizing : (g.pageCall c).2.sizing = g.sizing) : ByPageCalls f (g.pageCall c).2 := by
  obtain ⟨hown, calls, hcalls, rfl⟩ := h
  refine ⟨hsizing.trans hown, calls ++ [c], fun d hd => ?_, afterPageCalls_append f calls [c]⟩
  rcases List.mem_append.1 hd with hd | hd
  · exact hcalls d hd
  · rwa [List.mem_singleton.1 hd]

end PageFile

end RowIndex
