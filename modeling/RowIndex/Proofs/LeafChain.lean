import RowIndex.Tree.Lookup
import RowIndex.Proofs.OrderedTrees
import Mathlib.Data.List.Nodup
import Mathlib.Data.List.Perm.Subperm
import Mathlib.Data.List.TakeWhile

/-! # The leaf chain

Every leaf names the leaf behind it. In a sound file the chain meets the leaves of the tree from left
to right and ends behind the last of them.

* **`Tree.Linked`** — leaves each of which names the next one; `Linked.nodup` says that a chain with an
  end meets no leaf twice.
* **`Holds.nodup_pages`** — no page is used twice in a tree whose leaves lie on different pages.
* **`chainViolations_eq_nil_iff`** — an audit finds nothing along chains that meet the leaves in their
  order, and along no others.
* **`chainUntil_of_linked`** — a scan gives the entries of the chain up to the first key to stop
  at. -/

namespace RowIndex

namespace Tree

/-! ## (1) Linked leaves -/

/-- Where a chain of leaves starts: at the first of them, or at its end. -/
def firstId : List Leaf → PageId → PageId
  | [], stop => stop
  | l :: _, _ => l.id

/-- **Leaves each of which names the next one**; the last of them names `stop`. -/
def Linked : List Leaf → PageId → Prop
  | [], _ => True
  | l :: ls, stop => l.next = firstId ls stop ∧ Linked ls stop

@[simp] theorem firstId_nil (stop : PageId) : firstId [] stop = stop := rfl

@[simp] theorem firstId_cons (l : Leaf) (ls : List Leaf) (stop : PageId) :
    firstId (l :: ls) stop = l.id := rfl

theorem firstId_append (ls ms : List Leaf) (stop : PageId) :
    firstId (ls ++ ms) stop = firstId ls (firstId ms stop) := by
  cases ls <;> rfl

@[simp] theorem linked_nil (stop : PageId) : Linked [] stop := trivial

@[simp] theorem linked_cons {l : Leaf} {ls : List Leaf} {stop : PageId} :
    Linked (l :: ls) stop ↔ l.next = firstId ls stop ∧ Linked ls stop := Iff.rfl

/-- **A chain is cut between two leaves**: the first part ends where the second starts. -/
theorem linked_append {ls ms : List Leaf} {stop : PageId} :
    Linked (ls ++ ms) stop ↔ Linked ls (firstId ms stop) ∧ Linked ms stop := by
  induction ls with
  | nil => simp
  | cons l ls ih =>
    rw [List.cons_append, linked_cons, linked_cons, ih, firstId_append, and_assoc]

/-! ## (2) Leaves of a tree -/

theorem mem_leaves_iff {l : Leaf} {t : Tree} :
    l ∈ t.leaves ↔ Tree.leaf l.id l.entries l.next ∈ t.subtrees := by
  induction t with
  | leaf id es next =>
    obtain ⟨lid, les, lnext⟩ := l
    simp
  | branch id keys children ih =>
    rw [leaves_branch, subtrees_branch, List.mem_flatMap, List.mem_cons, List.mem_flatMap]
    constructor
    · rintro ⟨c, hc, hl⟩
      exact Or.inr ⟨c, hc, (ih c hc).1 hl⟩
    · rintro (h | ⟨c, hc, hl⟩)
      · cases h
      · exact ⟨c, hc, (ih c hc).2 hl⟩

/-- The leaves of a subtree are leaves of the tree. -/
theorem leaves_subset {s t : Tree} (h : s ∈ t.subtrees) : s.leaves ⊆ t.leaves :=
  fun _ hl => mem_leaves_iff.2 (mem_subtrees_trans (mem_leaves_iff.1 hl) h)

/-- Every tree has a leaf. -/
theorem Fits.leaves_ne_nil {t : Tree} (h : t.Fits) : t.leaves ≠ [] := by
  induction t with
  | leaf id es next => simp
  | branch id keys children ih =>
    have hlen := h.length_children
    obtain ⟨first, rest, rfl⟩ : ∃ first rest, children = first :: rest :=
      List.exists_cons_of_length_eq_add_one hlen
    rw [leaves_branch, List.flatMap_cons]
    exact List.append_ne_nil_of_left_ne_nil
      (ih first List.mem_cons_self (h.of_mem_children List.mem_cons_self)) _

end Tree

namespace PageFile

open RowIndex.Tree

/-- **The file holds each of some leaves** on the leaf's page. -/
def HoldsLeaves (f : PageFile) (ls : List Leaf) : Prop :=
  ∀ l ∈ ls, f.readPage l.id = .ok l.node

theorem Holds.leaves {f : PageFile} {t : Tree} (h : f.Holds t) : f.HoldsLeaves t.leaves :=
  fun l hl => h (.leaf l.id l.entries l.next) (mem_leaves_iff.1 hl)

/-- A page carries one leaf only. -/
theorem leaf_eq_of_id_eq {f : PageFile} {l m : Leaf} (hl : f.readPage l.id = .ok l.node)
    (hm : f.readPage m.id = .ok m.node) (h : l.id = m.id) : l = m := by
  have htrees := Holds.eq_of_page_eq (holds_leaf_iff.2 hl) (holds_leaf_iff.2 hm) h
  obtain ⟨lid, les, lnext⟩ := l
  obtain ⟨mid, mes, mnext⟩ := m
  cases htrees
  rfl

/-- **Two chains with an end that start at the same leaf** are the same. -/
theorem HoldsLeaves.eq_of_firstId_eq {f : PageFile} {ls ms : List Leaf} {stop : PageId}
    (hls : f.HoldsLeaves ls) (hms : f.HoldsLeaves ms) (hstop : ¬ stop.isValid)
    (hlinked : Linked ls stop) (hlinked' : Linked ms stop)
    (h : firstId ls stop = firstId ms stop) : ls = ms := by
  -- neither chain can end where the other goes on: a leaf's page is no end
  have hvalid : ∀ l : Leaf, f.readPage l.id = .ok l.node → l.id ≠ stop := by
    rintro l hl rfl
    exact hstop (Metadata.isValid_of_isAllocated (isAllocated_of_readPage hl))
  induction ls generalizing ms with
  | nil =>
    cases ms with
    | nil => rfl
    | cons m ms => exact absurd h.symm (hvalid m (hms m List.mem_cons_self))
  | cons l ls ih =>
    cases ms with
    | nil => exact absurd h (hvalid l (hls l List.mem_cons_self))
    | cons m ms =>
      obtain ⟨hl, hls⟩ := List.forall_mem_cons.1 hls
      obtain ⟨hm, hms⟩ := List.forall_mem_cons.1 hms
      have heq := leaf_eq_of_id_eq hl hm h
      have hnext : firstId ls stop = firstId ms stop := by
        rw [← hlinked.1, ← hlinked'.1, heq]
      rw [heq, ih hls hms hlinked.2 hlinked'.2 hnext]

/-- **A chain with an end meets no leaf twice**: the rest of the chain would be the same behind both
places. -/
theorem HoldsLeaves.nodup {f : PageFile} {ls : List Leaf} {stop : PageId} (hls : f.HoldsLeaves ls)
    (hstop : ¬ stop.isValid) (hlinked : Linked ls stop) : (ls.map Leaf.id).Nodup := by
  induction ls with
  | nil => exact List.nodup_nil
  | cons l ls ih =>
    refine List.nodup_cons.2 ⟨?_, ih (List.forall_mem_cons.1 hls).2 hlinked.2⟩
    intro hmem
    obtain ⟨m, hm, hid⟩ := List.mem_map.1 hmem
    obtain ⟨before, after, rfl⟩ := List.append_of_mem hm
    have hafter : f.HoldsLeaves (m :: after) :=
      fun k hk => hls k (List.mem_cons_of_mem _ (List.mem_append_right _ hk))
    -- the chain from the second place on is as long as the whole chain, and shorter
    have heq := hls.eq_of_firstId_eq hafter hstop hlinked (linked_append.1 hlinked.2).2 hid.symm
    have hlen := congrArg List.length heq
    simp only [List.length_cons, List.length_append] at hlen
    omega

/-- **No page is used twice in a tree whose leaves lie on different pages.** Below a page that is used
twice hang the same leaves twice. -/
theorem Holds.nodup_pages {f : PageFile} {t : Tree} (h : f.Holds t)
    (hleaves : (t.leaves.map Leaf.id).Nodup) : t.pages.Nodup := by
  induction t with
  | leaf id es next => simp
  | branch id keys children ih =>
    rw [leaves_branch, List.map_flatMap, List.nodup_flatMap] at hleaves
    rw [pages_branch, List.nodup_cons, List.nodup_flatMap]
    have hbelow := (holds_branch_iff.1 h).2
    refine ⟨?_, ?_, ?_⟩
    · intro hid
      obtain ⟨c, hc, hid⟩ := List.mem_flatMap.1 hid
      exact h.not_mem_pages_of_mem_children hc hid
    · exact fun c hc => ih c hc (hbelow c hc) (hleaves.1 c hc)
    · refine hleaves.2.imp_of_mem ?_
      intro c d hc hd hdisjoint p hpc hpd
      -- a page below two children carries one tree, so its leaves are below both
      obtain ⟨s, hs, rfl⟩ := List.mem_map.1 hpc
      obtain ⟨u, hu, hpage⟩ := List.mem_map.1 hpd
      obtain rfl := ((hbelow d hd).of_mem_subtrees hu).eq_of_page_eq
        ((hbelow c hc).of_mem_subtrees hs) hpage
      obtain ⟨l, hl⟩ := List.exists_mem_of_ne_nil _
        ((hbelow c hc).of_mem_subtrees hs).fits.leaves_ne_nil
      exact hdisjoint (List.mem_map.2 ⟨l, leaves_subset hs hl, rfl⟩)
        (List.mem_map.2 ⟨l, leaves_subset hu hl, rfl⟩)

/-- **Different pages from some place on** are no more than there are places. -/
theorem length_le_of_nodup_from {f : PageFile} {low : Nat} {ps : List PageId} (hnodup : ps.Nodup)
    (hps : ∀ p ∈ ps, f.record.isAllocated p) (hlow : ∀ p ∈ ps, low ≤ p.index) :
    ps.length ≤ f.pageCount - low := by
  have hindex : (ps.map PageId.index).Nodup :=
    (List.nodup_map_iff_inj_on hnodup).2 fun p hp q hq =>
      Metadata.eq_of_index_eq (hps p hp) (hps q hq)
  have hsub : ps.map PageId.index ⊆ List.range' low (f.pageCount - low) := by
    intro i hi
    obtain ⟨p, hp, rfl⟩ := List.mem_map.1 hi
    have hlast := (Metadata.index_of_isAllocated (hps p hp)).2
    have hfirst := hlow p hp
    rw [List.mem_range'_1, PageFile.pageCount]
    omega
  have hle := (List.subperm_of_subset hindex hsub).length_le
  rwa [List.length_map, List.length_range'] at hle

/-- **There are fewer different nodes than pages**, as page 0 holds none. -/
theorem length_le_of_nodup {f : PageFile} {ps : List PageId} (hnodup : ps.Nodup)
    (hps : ∀ p ∈ ps, f.record.isAllocated p) : ps.length ≤ f.pageCount - 1 :=
  length_le_of_nodup_from hnodup hps fun p hp => (Metadata.index_of_isAllocated (hps p hp)).1

/-! ## (3) Walks along the chain -/

/-- **A walk along the leaf chain** meets these leaves, and then a number that is no page's. -/
inductive Visits (f : PageFile) : PageId → List PageId → Prop
  /-- The end of the chain. -/
  | stop {p : PageId} : ¬ p.isValid → Visits f p []
  /-- A leaf, and the walk from the leaf that it names. -/
  | leaf {p : PageId} {n : Node} {ps : List PageId} :
      f.readPage p = .ok n → n.isLeaf → Visits f n.next ps → Visits f p (p :: ps)

/-- **A walk meets leaves that the file holds** just if they are linked. -/
theorem visits_iff_linked {f : PageFile} {ls : List Leaf} (hls : f.HoldsLeaves ls) {p : PageId} :
    f.Visits p (ls.map Leaf.id) ↔
      ∃ stop : PageId, ¬ stop.isValid ∧ p = firstId ls stop ∧ Linked ls stop := by
  induction ls generalizing p with
  | nil =>
    constructor
    · rintro (hp | _)
      exact ⟨p, hp, rfl, linked_nil p⟩
    · rintro ⟨stop, hstop, rfl, -⟩
      exact .stop hstop
  | cons l ls ih =>
    obtain ⟨hl, hls⟩ := List.forall_mem_cons.1 hls
    constructor
    · intro h
      generalize hids : (l :: ls).map Leaf.id = ids at h
      cases h with
      | stop => cases hids
      -- the page was read twice, so the leaf is the one in the list
      | leaf hread _ hrest =>
        obtain ⟨rfl, rfl⟩ := List.cons.inj hids
        rw [hl] at hread
        cases hread
        obtain ⟨stop, hstop, hnext, hlinked⟩ := (ih hls).1 hrest
        exact ⟨stop, hstop, rfl, hnext, hlinked⟩
    · rintro ⟨stop, hstop, rfl, hnext, hlinked⟩
      exact .leaf hl rfl ((ih hls).2 ⟨stop, hstop, hnext, hlinked⟩)

/-- Following the chain, leaf by leaf. -/
theorem chainFrom_of_isValid {f : PageFile} {leaves : Nat} {current : PageId}
    (h : current.isValid) (left : Nat) (previous : Option Int32) :
    f.chainFrom leaves left current previous =
      match left with
      | 0 => .ok ⟨[], [.chainContinues leaves], false⟩
      | left + 1 =>
        match f.readPage current with
        | .error e => .error e
        | .ok node =>
          if node.isLeaf then
            match f.chainFrom leaves left node.next (node.keys.getLast?.or previous) with
            | .error e => .error e
            | .ok rest => .ok ⟨current :: rest.visited,
                backwards current previous node.keys.head? ++ rest.violations, rest.ended⟩
          else .ok ⟨[], [.chainReachesInternal current], false⟩ := by
  rw [chainFrom.eq_def]
  simp only [if_pos h]
  cases left with
  | zero => rfl
  | succ left =>
    simp only [bind, Except.bind]
    cases f.readPage current with
    | error e => rfl
    | ok node =>
      simp only
      split
      · cases f.chainFrom leaves left node.next (node.keys.getLast?.or previous) <;> rfl
      · rfl

theorem chainFrom_of_not_isValid {f : PageFile} {leaves : Nat} {current : PageId}
    (h : ¬ current.isValid) (left : Nat) (previous : Option Int32) :
    f.chainFrom leaves left current previous = .ok ⟨[], [], true⟩ := by
  rw [chainFrom.eq_def]
  simp only [if_neg h]

/-- **An audit without complaints** has walked to the end of the chain. -/
theorem visits_of_chainFrom {f : PageFile} {leaves left : Nat} {current : PageId}
    {previous : Option Int32} {walk : ChainWalk}
    (h : f.chainFrom leaves left current previous = .ok walk) (hclean : walk.violations = []) :
    f.Visits current walk.visited ∧ walk.ended = true := by
  induction left generalizing current previous walk with
  | zero =>
    by_cases hvalid : current.isValid
    · rw [chainFrom_of_isValid hvalid] at h
      cases h
      cases hclean
    · rw [chainFrom_of_not_isValid hvalid] at h
      cases h
      exact ⟨.stop hvalid, rfl⟩
  | succ left ih =>
    by_cases hvalid : current.isValid
    · rw [chainFrom_of_isValid hvalid] at h
      simp only at h
      split at h
      · cases h
      · rename_i node hread
        split at h
        · rename_i hleaf
          split at h
          · cases h
          · rename_i rest hrest
            cases h
            -- what is found further on is reported with what is found here
            obtain ⟨hvisits, hended⟩ := ih hrest (List.append_eq_nil_iff.1 hclean).2
            exact ⟨.leaf hread hleaf hvisits, hended⟩
        · cases h
          cases hclean
    · rw [chainFrom_of_not_isValid hvalid] at h
      cases h
      exact ⟨.stop hvalid, rfl⟩

/-- A leaf that starts no lower than a key before it. -/
theorem backwards_eq_nil {id : PageId} {previous upper : Option Int32} {keys : List Int32}
    (h : KeysFit previous upper keys) : backwards id previous keys.head? = [] := by
  cases previous with
  | none => rfl
  | some bound =>
    cases keys with
    | nil => rfl
    | cons first rest =>
      have hle := h.head.lower bound rfl
      simp only [backwards, List.head?_cons]
      rw [if_neg (Int32.not_lt.2 hle)]

/-- **An audit along linked leaves with ascending keys** walks to their end without complaints. -/
theorem chainFrom_of_linked {f : PageFile} {ls : List Leaf} {stop : PageId}
    (hls : f.HoldsLeaves ls) (hstop : ¬ stop.isValid) (hlinked : Linked ls stop) (leaves : Nat)
    {left : Nat} (hleft : ls.length ≤ left) {previous : Option Int32}
    (hkeys : KeysFit previous none ((ls.flatMap Leaf.entries).map (·.1))) :
    f.chainFrom leaves left (firstId ls stop) previous = .ok ⟨ls.map Leaf.id, [], true⟩ := by
  induction ls generalizing left previous with
  | nil => exact chainFrom_of_not_isValid hstop left previous
  | cons l ls ih =>
    obtain ⟨hl, hls⟩ := List.forall_mem_cons.1 hls
    obtain ⟨left, rfl⟩ : ∃ n, left = n + 1 := ⟨left - 1, by simp at hleft; omega⟩
    rw [List.flatMap_cons, List.map_append] at hkeys
    have hkeysOf : l.node.keys = l.entries.map (·.1) := rfl
    have hnext : l.node.next = firstId ls stop := hlinked.1
    have hleaf : l.node.isLeaf = true := rfl
    -- the rest of the chain goes on from the last key of this leaf
    have hrest := ih hls hlinked.2 (Nat.le_of_succ_le_succ hleft) hkeys.behind
    have hfirst : backwards l.id previous (l.entries.map (·.1)).head? = [] :=
      backwards_eq_nil hkeys.before
    rw [firstId_cons, chainFrom_of_isValid
      (Metadata.isValid_of_isAllocated (isAllocated_of_readPage hl))]
    simp only [hl, hleaf, if_true, hnext, hkeysOf]
    unfold gapLower at hrest
    rw [hrest, hfirst]
    rfl

/-- **An audit finds nothing along the chain** of an ordered tree just if the chain meets the leaves
from left to right and then ends. -/
theorem chainViolations_eq_nil_iff {f : PageFile} {t : Tree} {height : Nat} (h : f.Holds t)
    (hordered : Ordered height none none t) :
    f.chainViolations (t.leaves.map Leaf.id) = .ok [] ↔
      ∃ stop : PageId, ¬ stop.isValid ∧ Linked t.leaves stop := by
  obtain ⟨first, rest, hleaves⟩ := List.exists_cons_of_ne_nil h.fits.leaves_ne_nil
  have hls := h.leaves
  constructor
  · intro hchain
    rw [hleaves, List.map_cons, chainViolations] at hchain
    simp only [bind, Except.bind] at hchain
    split at hchain
    · cases hchain
    · rename_i walk hwalk
      -- a violation of the order would be reported behind all others
      have hclean : walk.violations = [] := by
        split at hchain
        · simp [pure, Except.pure] at hchain
        · exact Except.ok.inj hchain
      obtain ⟨hvisits, hended⟩ := visits_of_chainFrom hwalk hclean
      -- other leaves than those of the tree would be reported
      have hvisited : walk.visited = (first :: rest).map Leaf.id := by
        by_contra hne
        rw [List.map_cons] at hne
        rw [hended] at hchain
        simp [hne, pure, Except.pure] at hchain
      rw [hleaves] at hls ⊢
      rw [hvisited] at hvisits
      obtain ⟨stop, hstop, -, hlinked⟩ := (visits_iff_linked hls).1 hvisits
      exact ⟨stop, hstop, hlinked⟩
  · rintro ⟨stop, hstop, hlinked⟩
    have hkeys : KeysFit none none ((t.leaves.flatMap Leaf.entries).map (·.1)) :=
      hordered.keysFit_entries
    have hwalk := chainFrom_of_linked hls hstop hlinked t.leaves.length (Nat.le_refl _) hkeys
    rw [hleaves] at hwalk ⊢
    rw [List.map_cons, chainViolations, List.length_cons, List.length_map]
    rw [firstId_cons, List.length_cons] at hwalk
    rw [hwalk]
    simp [bind, Except.bind, pure, Except.pure]

/-! ## (4) Scans along the chain -/

section Stopping

variable {stopAt : Int32 → Bool} {es : List (Int32 × RowId)}

theorem not_stopping (h : ¬ es.any fun entry => stopAt entry.1) :
    ∀ entry ∈ es, (!stopAt entry.1) = true := by
  intro entry hmem
  by_contra hentry
  exact h (List.any_eq_true.2 ⟨entry, hmem, by simpa using hentry⟩)

/-- Behind a key to stop at nothing is scanned. -/
theorem takeWhile_append_of_stopping (h : es.any fun entry => stopAt entry.1)
    (rest : List (Int32 × RowId)) :
    (es ++ rest).takeWhile (fun entry => !stopAt entry.1)
      = es.takeWhile fun entry => !stopAt entry.1 := by
  obtain ⟨entry, hmem, hentry⟩ := List.any_eq_true.1 h
  rw [List.takeWhile_append, if_neg]
  intro hlen
  have hall := List.takeWhile_eq_self_iff.1 ((List.takeWhile_prefix _).eq_of_length hlen)
  have hnot := hall entry hmem
  rw [hentry] at hnot
  cases hnot

end Stopping

/-- A scan, leaf by leaf. -/
theorem chainUntil_node (f : PageFile) (stopAt : Int32 → Bool) (fuel : Nat) (l : Leaf) :
    f.chainUntil stopAt fuel l.node =
      if l.entries.any fun entry => stopAt entry.1 then
        .ok (l.entries.takeWhile fun entry => !stopAt entry.1)
      else if l.next.isValid then
        match fuel with
        | 0 => .error (.fault .endlessWalk)
        | fuel + 1 =>
          match f.readPage l.next with
          | .error e => .error e
          | .ok node =>
            match f.chainUntil stopAt fuel node with
            | .error e => .error e
            | .ok rest => .ok (l.entries ++ rest)
      else .ok l.entries := by
  have hentries : l.node.entries = l.entries := entries_node_leaf l.id l.entries l.next
  have hnext : l.node.next = l.next := rfl
  rw [chainUntil.eq_def]
  simp only [hentries, hnext]
  split
  · rfl
  · -- no key of this leaf stops the scan, so all its entries are taken
    rename_i hany
    rw [List.takeWhile_eq_self_iff.2 (not_stopping hany)]
    split
    · cases fuel with
      | zero => rfl
      | succ fuel =>
        simp only [bind, Except.bind]
        cases f.readPage l.next with
        | error e => rfl
        | ok node =>
          simp only
          cases f.chainUntil stopAt fuel node <;> rfl
    · rfl

/-- **A scan along linked leaves** gives their entries up to the first key to stop at. -/
theorem chainUntil_of_linked {f : PageFile} {stopAt : Int32 → Bool} {l : Leaf} {ls : List Leaf}
    {stop : PageId} (hls : f.HoldsLeaves ls) (hstop : ¬ stop.isValid)
    (hlinked : Linked (l :: ls) stop) {fuel : Nat} (hfuel : ls.length ≤ fuel) :
    f.chainUntil stopAt fuel l.node =
      .ok (((l :: ls).flatMap Leaf.entries).takeWhile fun entry => !stopAt entry.1) := by
  induction ls generalizing l fuel with
  | nil =>
    obtain ⟨hnext, -⟩ := linked_cons.1 hlinked
    rw [chainUntil_node, hnext, firstId_nil, if_neg hstop, List.flatMap_singleton]
    split
    · rfl
    · rename_i hany
      rw [List.takeWhile_eq_self_iff.2 (not_stopping hany)]
  | cons m ls ih =>
    -- one step along the chain, where the next leaf is allocated
    obtain ⟨hnext, hrest⟩ := linked_cons.1 hlinked
    obtain ⟨hm, hls⟩ := List.forall_mem_cons.1 hls
    obtain ⟨fuel, rfl⟩ : ∃ n, fuel = n + 1 := ⟨fuel - 1, by simp at hfuel; omega⟩
    have hvalid := Metadata.isValid_of_isAllocated (isAllocated_of_readPage hm)
    have hscan := ih hls hrest (Nat.le_of_succ_le_succ hfuel)
    rw [chainUntil_node, hnext, firstId_cons, if_pos hvalid, List.flatMap_cons]
    simp only [hm, hscan]
    split
    · rename_i hany
      rw [takeWhile_append_of_stopping hany]
    · rename_i hany
      rw [List.takeWhile_append_of_pos (not_stopping hany)]

end PageFile

end RowIndex
