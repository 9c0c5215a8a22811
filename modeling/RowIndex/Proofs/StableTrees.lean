import RowIndex.Proofs.Calls
import RowIndex.Proofs.EqualKeys

/-! # Trees that grow stay well-formed

What an audit accepts, it accepts after every call on the index. The first nodes of an index are looked
at more closely: its only leaf takes entries up to `Layout.maxKeys = 112`, and the next one splits it.

* **`Carries.insertValue_leaf`**, `Carries.insertValue_fullLeaf` — an insertion into a lone leaf, with
  room and without.
* **`exists_afterAll_inserts`** — a new file takes a row of entries that is one too long for a leaf.
* **`verify_stable`** — the rules of the tree are kept by all calls. -/

namespace RowIndex

namespace Tree

/-- **The halves of a leaf have room**, and so has a root above them. -/
theorem Halves.not_isFull {sibling root id next : PageId} {key : Int32} {es : List (Int32 × RowId)}
    {l r : Tree} (h : Halves sibling (.leaf id es next) l key r) :
    ∀ s ∈ (Tree.branch root [key] [l, r]).subtrees, ¬ s.node.isFull := by
  cases h with
  | leaf hfront hback =>
    intro s hs
    simp only [subtrees_branch, List.flatMap_cons, subtrees_leaf, List.flatMap_nil,
      List.append_nil, List.mem_cons, List.mem_append, List.not_mem_nil, or_false] at hs
    rcases hs with rfl | rfl | rfl
    · simp [Node.isFull, Layout.maxKeys]
    · simp [Node.isFull, hfront, Layout.minDegree, Layout.maxKeys]
    · simp [Node.isFull, hback, Layout.minDegree, Layout.maxKeys]

end Tree

namespace PageFile

open RowIndex.Action RowIndex.Tree

variable {f : PageFile} {id next : PageId} {es : List (Int32 × RowId)}

/-! ## (1) Insertions into a lone leaf -/

/-- **What is mapped gets no less**, whatever an action does. -/
theorem simulation_capacity (c : Nat) : Simulation fun f g => f = g ∧ c ≤ f.capacity := by
  refine simulation_of_keeps (fun f h => ?_) (fun node f h => ?_) (fun root f h => ?_) fun f h => ?_
  · have hroom : c ≤ f.withRoom.2.capacity := by
      simp only [withRoom]
      split
      · exact h
      · rename_i hneeded
        split
        · exact h
        · split
          · split
            · -- the file had less than the needed length, so more is mapped than before
              simp only [grownLength]
              omega
            · exact h
          · exact h
    rw [runOn_allocate]
    generalize f.withRoom = outcome at hroom ⊢
    obtain ⟨failure | ok, g⟩ := outcome
    · exact hroom
    · simp only
      split <;> exact hroom
  · rw [runOn_writePage]
    split
    · split <;> exact h
    · exact h
  · rw [runOn_setRoot]
    split <;> exact h
  · rw [runOn_flush]
    split <;> exact h

/-- An insertion maps no less than was mapped. -/
theorem capacity_le_insertValue (key : Int32) (value : RowId) (f : PageFile) :
    f.capacity ≤ ((insertValue key value).runOn f).2.capacity :=
  respects_iff_keeps.1 ((simulation_capacity f.capacity).insertValue key value) f (Nat.le_refl _)

/-- **An insertion that has nothing to split succeeds.** -/
theorem Carries.insertBelow_of_room {height fuel : Nat} {t : Tree} (h : f.Carries height t)
    (hroom : ∀ s ∈ t.subtrees, ¬ s.node.isFull) (hfuel : height ≤ fuel) (key : Int32)
    (value : RowId) :
    ∃ g t', (insertBelow key value fuel t.node).runOn f = (.ok (), g) ∧ g.Carries height t' := by
  obtain ⟨place, m, hreaches⟩ := h.held.fits.exists_reaches (frontCount_le (· ≤ key))
  have hm := mem_leaves_iff.1 (List.mem_of_getElem? hreaches.getElem?_leaves)
  obtain ⟨_, _, _, hordered⟩ := h.ordered.of_mem_subtrees hm
  have hcases := insertBelow_cases key value h.held h.nodup_pages h.ordered
    (by simpa [Node.isFull] using hroom t (self_mem_subtrees t)) hfuel
  obtain ⟨_, _, _, -, -, hwrite, -⟩ := exists_runOn_withEntry key value (h.held.of_mem_subtrees hm)
    hordered.keysFit.sorted (by simpa [Node.isFull] using hroom _ hm)
  have hrun := (hreaches.insertBelow h.held hroom h.ordered.balanced hfuel value).trans hwrite
  rw [hrun] at hcases
  cases hcases with
  | done hsplits hput hgrown => exact ⟨_, _, hrun, (h.of_put hsplits hput hgrown).1⟩

/-- **A lone leaf with room takes an entry.** -/
theorem Carries.insertValue_leaf (h : f.Carries 0 (leaf id es next))
    (hroom : es.length < Layout.maxKeys) (key : Int32) (value : RowId) :
    ∃ g es', (insertValue key value).runOn f = (.ok (), g) ∧ g.Carries 0 (leaf id es' next) ∧
      es'.length = es.length + 1 ∧ g.record = f.record := by
  have hnotFull : ∀ s ∈ (leaf id es next).subtrees, ¬ s.node.isFull := by
    intro s hs
    rw [subtrees_leaf, List.mem_singleton] at hs
    obtain rfl := hs
    simpa [Node.isFull] using hroom
  have hreaches : Reaches (Route.insertion key) (leaf id es next) 0 ⟨id, es, next⟩ := .leaf
  have hrun := h.insertValue_of_room hreaches hnotFull value
  obtain ⟨front, back, rfl, hfront, hback, hwrite, hgrown⟩ :=
    exists_runOn_withEntry key value h.held (ordered_leaf_iff.1 h.ordered).sorted hroom
  refine ⟨_, _, hrun.trans hwrite, (h.of_put (Splits.refl _) (.leaf hfront hback) hgrown).1, ?_, rfl⟩
  simp only [List.length_append, List.length_cons]
  omega

/-- **A lone leaf without room is split**, where two pages more can be counted and are mapped. -/
theorem Carries.insertValue_fullLeaf (h : f.Carries 0 (leaf id es next))
    (hfull : es.length = Layout.maxKeys) (hcount : f.record.pages.toInt + 2 ≤ 0x7FFFFFFF)
    (hmapped : (f.pageCount + 2) * Layout.pageSize ≤ f.capacity) (key : Int32) (value : RowId) :
    ∃ g t, (insertValue key value).runOn f = (.ok (), g) ∧ g.Carries 1 t := by
  have hattempt := h.attempt key value
  have hone := Metadata.one_le_pages_of_isAllocated h.isAllocated_root
  have hmax : Int32.maxValue.toInt = 0x7FFFFFFF := by decide
  -- one page is for the new root, and one for the second half of the leaf
  have hfits : f.record.pages ≠ Int32.maxValue := by
    intro hpages
    have := congrArg Int32.toInt hpages
    omega
  have hfirst : allocate.runOn f = (.ok f.nextPage, f.withFreshPage) := by
    refine runOn_allocate_of_room hfits (Nat.le_trans ?_ hmapped)
    exact Nat.mul_le_mul_right _ (Nat.le_succ _)
  have hpages : f.withFreshPage.record.pages.toInt = f.record.pages.toInt + 1 :=
    Metadata.toInt_pages_add_one hfits
  have hsecond : allocate.runOn f.withFreshPage
      = (.ok f.withFreshPage.nextPage, f.withFreshPage.withFreshPage) := by
    refine runOn_allocate_of_room (fun hlast => ?_) ?_
    · have := congrArg Int32.toInt hlast
      omega
    · rw [capacity_withFreshPage]
      refine Nat.le_trans (Nat.mul_le_mul_right _ ?_) hmapped
      rw [pageCount, pageCount, Metadata.pageCount, Metadata.pageCount, hpages]
      omega
  generalize hrun : (insertValue key value).runOn f = outcome at hattempt
  cases hattempt with
  | refused hrefused => cases hfirst.symm.trans hrefused.run
  | halfway hallocate _ hrefused =>
    obtain rfl := congrArg Prod.snd (hfirst.symm.trans hallocate)
    cases hsecond.symm.trans hrefused.run
  | @below k height fuel t' _ hk hraised _ _ hkroom hfuel hinsert =>
    cases hraised with
    | same =>
      rw [keys_leaf, List.length_map] at hkroom
      omega
    | above hhalves =>
      have hheight : height = 1 := by
        cases hhalves
        have hbalanced := hk.ordered.balanced
        rcases height with _ | _ | below
        · exact hbalanced.elim
        · rfl
        · exact (hbalanced _ List.mem_cons_self).elim
      obtain ⟨g, t, hbelow, hg⟩ := hk.insertBelow_of_room hhalves.not_isFull hfuel key value
      exact ⟨g, t, hinsert.trans hbelow, hheight ▸ hg⟩

/-- **A lone leaf takes a row of entries** that it has room for. -/
theorem Carries.exists_afterAll (h : f.Carries 0 (leaf id es next)) {row : List (Int32 × String)}
    (hroom : es.length + row.length ≤ Layout.maxKeys) :
    ∃ g es', f.afterAll (row.map fun e => .insert e.1 e.2) = .ok g ∧
      g.Carries 0 (leaf id es' next) ∧ es'.length = es.length + row.length ∧ g.record = f.record ∧
        f.capacity ≤ g.capacity := by
  induction row generalizing f es with
  | nil => exact ⟨f, es, rfl, h, rfl, rfl, Nat.le_refl _⟩
  | cons e row ih =>
    rw [List.length_cons] at hroom
    obtain ⟨k, ks, hrun, hk, hlength, hrecord⟩ :=
      h.insertValue_leaf (by omega) e.1 (RowId.ofText e.2)
    obtain ⟨g, es', hafter, hg, hlength', hrecord', hcapacity⟩ := ih hk (by omega)
    have hcall : f.call (.insert e.1 e.2) = (.ok (), k) := hrun
    have hmapped := capacity_le_insertValue e.1 (RowId.ofText e.2) f
    rw [hrun] at hmapped
    refine ⟨g, es', afterAll_cons_eq_ok_iff.2 ⟨k, hcall, hafter⟩, hg, ?_, hrecord'.trans hrecord,
      Nat.le_trans hmapped hcapacity⟩
    rw [hlength', hlength, List.length_cons]
    omega

/-- **A new file takes a row of entries that is one too long for a leaf.** -/
theorem exists_afterAll_inserts (hroot : ¬ f.root.isValid) (hpages : f.record.pages.toInt = 1)
    (hmapped : 4 * Layout.pageSize ≤ f.capacity) (first last : Int32 × String)
    {row : List (Int32 × String)} (hlength : row.length + 1 = Layout.maxKeys) :
    ∃ k g t, f.afterAll ((first :: row).map fun e => .insert e.1 e.2) = .ok k ∧
      (insert last.1 last.2).runOn k = (.ok (), g) ∧ g.Carries 1 t := by
  have hmax : Int32.maxValue.toInt = 0x7FFFFFFF := by decide
  -- the first entry makes a leaf
  have hallocate : allocate.runOn f = (.ok f.nextPage, f.withFreshPage) := by
    refine runOn_allocate_of_room (fun hlast => ?_) (Nat.le_trans ?_ hmapped)
    · have := congrArg Int32.toInt hlast
      omega
    · refine Nat.mul_le_mul_right _ ?_
      rw [pageCount, Metadata.pageCount, hpages]
      decide
  rcases insertValue_unrooted_cases hroot first.1 (RowId.ofText first.2) with
    ⟨failure, h, -, hrefused⟩ | ⟨h, hrun, hcarries, hcount⟩ | ⟨hnone, -⟩
  · cases hallocate.symm.trans hrefused.run
  · have hmapped' := capacity_le_insertValue first.1 (RowId.ofText first.2) f
    rw [hrun] at hmapped'
    -- the leaf takes all entries but the last, which splits it
    have hroom : [(first.1, RowId.ofText first.2)].length + row.length ≤ Layout.maxKeys := by
      rw [List.length_singleton]
      omega
    obtain ⟨k, es, hafter, hk, hfull, hrecord, hcapacity⟩ := hcarries.exists_afterAll hroom
    rw [List.length_singleton] at hfull
    have htwo : k.record.pages.toInt = 2 := by
      rw [hrecord, hcount, hpages]
      rfl
    obtain ⟨g, t, hlast, hg⟩ := hk.insertValue_fullLeaf (by omega) (by omega)
      (Nat.le_trans (by rw [pageCount, Metadata.pageCount, htwo]; decide)
        (Nat.le_trans hmapped (Nat.le_trans hmapped' hcapacity))) last.1 (RowId.ofText last.2)
    exact ⟨k, g, t, afterAll_cons_eq_ok_iff.2 ⟨h, hrun, hafter⟩, hlast, hg⟩
  · omega

/-! ## (2) The rules of the tree -/

/-- **What an audit accepts, it accepts after every call**: after an insertion that succeeds, after a
deletion or a save whatever its outcome, and when a closed file is opened again, which it can be
if its length can be mapped. So the tree of an index that was created is well-formed after every run
of calls. -/
theorem verify_stable :
    (∀ f s, f.verify = .ok s →
      (∀ key text g, (insert key text).runOn f = (.ok (), g) → ∃ s', g.verify = .ok s') ∧
      (∀ texts, ∃ s', ((deleteValues texts).runOn f).2.verify = .ok s') ∧
      (∃ s', (flush.runOn f).2.verify = .ok s') ∧
      (∀ host path sizing g, openImage host path f.flushed.image sizing = .ok g →
        ∃ s', g.verify = .ok s') ∧
      (f.InUse → ∀ host : Host, host.maps f.image.length → ∀ path sizing,
        ∃ g, openImage host path f.flushed.image sizing = .ok g)) ∧
    ∀ host path sizing f, create host path sizing = .ok f → ∀ calls,
      (∃ s, (f.afterCalls calls).verify = .ok s) ∧ (f.afterCalls calls).InUse ∧
        (¬ (f.afterCalls calls).root.isValid ∨ ∃ t, (f.afterCalls calls).WellFormed t) := by
  refine ⟨fun f s h => ?_, fun host path sizing f h calls => ?_⟩
  · obtain ⟨L, hlists⟩ := exists_lists_iff.2 ⟨s, h⟩
    refine ⟨fun key text g hrun => ?_, fun texts => ?_, ?_, fun host path sizing g hopen => ?_,
      fun hinUse host hlength path sizing => ⟨_, openImage_flushed hinUse hlength path sizing⟩⟩
    · -- an insertion that was refused is excluded by `hrun`
      have hinserted := hlists.insertValue key (RowId.ofText text)
      rw [← insert, hrun] at hinserted
      cases hinserted with
      | done _ _ _ hlists' => exact exists_lists_iff.1 ⟨_, hlists'⟩
    · have hdeleted := hlists.deleteValues texts
      generalize (deleteValues texts).runOn f = outcome at hdeleted ⊢
      cases hdeleted with
      | done hlists' => exact exists_lists_iff.1 ⟨_, hlists'⟩
      | refused _ hlists' => exact exists_lists_iff.1 ⟨_, hlists'⟩
    · exact exists_lists_iff.1 ⟨L, hlists.flush⟩
    · obtain ⟨hrecord, hread⟩ := openImage_flushed_eq_ok hopen
      exact exists_lists_iff.1 ⟨L, hlists.congr hrecord hread⟩
  · obtain ⟨L, hlists⟩ := (lists_create h).afterCalls (inUse_create h) calls
    refine ⟨exists_lists_iff.1 ⟨L, hlists⟩, (inUse_create h).afterCalls calls, ?_⟩
    cases hlists with
    | nothing hroot => exact Or.inl hroot
    | tree hcarries => exact Or.inr ⟨_, wellFormed_iff_carries.2 ⟨_, hcarries⟩⟩

/-- Entries of which the last one splits the only leaf of a new file. -/
def splittingRow : List (Int32 × String) :=
  List.replicate Layout.maxKeys (3, "three") ++ [(7, "seven")]

/-- The insertions of these entries. -/
def splittingCalls : List Call :=
  splittingRow.map fun e => .insert e.1 e.2

theorem exists_afterAll_splittingCalls :
    ∃ k g t, newFile.afterAll (List.replicate Layout.maxKeys (.insert 3 "three")) = .ok k ∧
      (insert 7 "seven").runOn k = (.ok (), g) ∧ newFile.afterAll splittingCalls = .ok g ∧
        g.Carries 1 t := by
  have hlength : (List.replicate (Layout.maxKeys - 1) ((3 : Int32), "three")).length + 1
      = Layout.maxKeys := rfl
  obtain ⟨k, g, t, hfirst, hlast, hg⟩ := exists_afterAll_inserts (f := newFile) (by decide) (by decide)
    (by decide) (3, "three") (7, "seven") hlength
  rw [List.map_cons, List.map_replicate, ← List.replicate_succ] at hfirst
  have hafter : k.afterAll [.insert 7 "seven"] = .ok g :=
    afterAll_cons_eq_ok_iff.2 ⟨g, hlast, rfl⟩
  have hcalls : splittingCalls
      = List.replicate Layout.maxKeys (.insert 3 "three") ++ [.insert 7 "seven"] := by
    rw [splittingCalls, splittingRow, List.map_append, List.map_replicate]
    rfl
  exact ⟨k, g, t, hfirst, hlast, hcalls ▸ afterAll_append hfirst hafter, hg⟩

theorem verify_stable_newFile :
    ∃ k g t, (∃ s, k.verify = .ok s) ∧ (insert 7 "seven").runOn k = (.ok (), g) ∧
      (∃ s, g.verify = .ok s) ∧ g.Carries 1 t ∧
      (∃ h, openImage { (default : Host) with maps := fun _ => true } "new" g.flushed.image .default
        = .ok h ∧ ∃ s, h.verify = .ok s) ∧
      ∃ s, (newFile.afterCalls (splittingCalls ++ [.deleteValues ["seven"],
        .reopen true .default])).verify = .ok s := by
  obtain ⟨hcall, hrun⟩ := verify_stable
  obtain ⟨k, g, t, hfirst, hlast, hafter, hg⟩ := exists_afterAll_splittingCalls
  obtain ⟨⟨s, hk⟩, -⟩ := hrun default "new" .default newFile create_newFile _
  rw [afterCalls_of_afterAll hfirst] at hk
  obtain ⟨hinsert, -⟩ := hcall k s hk
  obtain ⟨s', hs'⟩ := hinsert 7 "seven" g hlast
  obtain ⟨-, -, -, hopened, hopens⟩ := hcall g s' hs'
  obtain ⟨-, hinUse, -⟩ := hrun default "new" .default newFile create_newFile splittingCalls
  rw [afterCalls_of_afterAll hafter] at hinUse
  obtain ⟨h, hopen⟩ := hopens hinUse { (default : Host) with maps := fun _ => true } rfl "new" .default
  exact ⟨k, g, t, ⟨s, hk⟩, hlast, ⟨s', hs'⟩, hg, ⟨h, hopen, hopened _ "new" .default h hopen⟩,
    (hrun default "new" .default newFile create_newFile _).1⟩

end PageFile

end RowIndex
