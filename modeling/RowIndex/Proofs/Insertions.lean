import RowIndex.Tree.Insertion
import RowIndex.Proofs.Lookups
import RowIndex.Proofs.TreeGrowth

/-! # Insertions

An insertion into a file that carries a tree makes the tree grow by splits and one put. It fails only
when there is no room for another page, and then the splits made so far have kept every entry.

* **`exists_halves`**, `withChild_node`, `withEntry_node` — the nodes that an insertion writes are those
  of the grown tree.
* **`PageFile.Grown`** — the file holds a grown tree, and all pages outside it read as before;
  `PageFile.Gained` is the same without regard to the root.
* **`splitChild_pages_cases`** — what a split can do to the pages of any parent and child.
* **`splitChild_cases`**, `insertBelow_cases` — all that each action can do to a tree.
* **`PageFile.Attempted`** — how far an insertion comes, step by step; `Carries.attempt`.
* **`PageFile.Inserted`** — what an insertion comes to; `Lists.insertValue` says that there is nothing
  else in a file that an audit accepts. -/

namespace RowIndex

namespace Tree

/-! ## (1) The nodes that are written -/

theorem defect?_leaf {id : PageId} {es : List (Int32 × RowId)} {next : PageId} :
    (leaf id es next).node.defect? = none ↔ es.length ≤ Layout.maxKeys := by
  rw [Node.defect?_eq_none_iff]
  simp [node]

theorem defect?_branch {id : PageId} {keys : List Int32} {children : List Tree} :
    (branch id keys children).node.defect? = none ↔
      keys.length ≤ Layout.maxKeys ∧ children.length = keys.length + 1 := by
  rw [Node.defect?_eq_none_iff]
  simp [node]

/-- An internal node with room for another key fits with one child more. -/
theorem defect?_withChild {n : Node} (hfit : n.defect? = none) (hinner : ¬ n.isLeaf)
    (hroom : n.keys.length < Layout.maxKeys) {i : Nat} (hi : i ≤ n.keys.length)
    (separator : Int32) (sibling : PageId) : (n.withChild i separator sibling).defect? = none := by
  obtain ⟨id, keys, body⟩ := n
  cases body with
  | leaf => exact absurd rfl hinner
  | internal children =>
    have hchildren : children.length = keys.length + 1 :=
      ((Node.defect?_eq_none_iff _).1 hfit).2
    refine (Node.defect?_eq_none_iff _).2 ?_
    simp only [Node.withChild, Node.children] at hi hroom ⊢
    rw [List.length_insertIdx_of_le_length hi,
      List.length_insertIdx_of_le_length (by omega), hchildren]
    exact ⟨hroom, rfl⟩

/-- A leaf is split before its middle entry. -/
theorem split?_leaf (id sibling next : PageId) {entry : Int32 × RowId}
    {front back : List (Int32 × RowId)} (hlen : front.length = Layout.minDegree) :
    (leaf id (front ++ entry :: back) next).node.split? sibling =
      some ⟨(leaf id front sibling).node, entry.1, (leaf sibling (entry :: back) next).node⟩ := by
  have hkeys : (front.map (·.1)).length = Layout.minDegree := by rw [List.length_map, hlen]
  have hvalues : (front.map (·.2)).length = Layout.minDegree := by rw [List.length_map, hlen]
  simp only [Node.split?, node, List.map_append, List.map_cons]
  rw [List.getElem?_append_right (Nat.le_of_eq hkeys), hkeys, Nat.sub_self, List.take_left' hkeys,
    List.take_left' hvalues, List.drop_left' hkeys, List.drop_left' hvalues]
  rfl

/-- A branch is split around its middle key. -/
theorem split?_branch (id sibling : PageId) {key : Int32} {front back : List Int32}
    {ts us : List Tree} (hlen : front.length = Layout.minDegree)
    (hts : ts.length = Layout.minDegree + 1) :
    (branch id (front ++ key :: back) (ts ++ us)).node.split? sibling =
      some ⟨(branch id front ts).node, key, (branch sibling back us).node⟩ := by
  have hpages : (ts.map page).length = Layout.minDegree + 1 := by rw [List.length_map, hts]
  have hdrop : (front ++ key :: back).drop (Layout.minDegree + 1) = back := by
    rw [List.append_cons]
    exact List.drop_left' (by rw [List.length_append, hlen]; rfl)
  simp only [Node.split?, node, List.map_append]
  rw [List.getElem?_append_right (Nat.le_of_eq hlen), hlen, Nat.sub_self, List.take_left' hlen,
    hdrop, List.take_left' hpages, List.drop_left' hpages]
  rfl

/-- **A full node that fits in its page is split** into halves that have room. -/
theorem exists_halves {c : Tree} (hfit : c.node.defect? = none) (hfull : c.node.isFull)
    (sibling : PageId) :
    ∃ l key r, Halves sibling c l key r ∧ c.node.split? sibling = some ⟨l.node, key, r.node⟩ ∧
      (l.keys.length < Layout.maxKeys ∧ l.node.defect? = none) ∧
      r.keys.length < Layout.maxKeys ∧ r.node.defect? = none := by
  have hcount : c.keys.length = Layout.maxKeys := by
    have hle := ((Node.defect?_eq_none_iff _).1 hfit).1
    have hge := of_decide_eq_true hfull
    rw [keys_node] at hle hge
    omega
  cases c with
  | leaf id es next =>
    rw [keys_leaf, List.length_map] at hcount
    -- the middle entry stays in the right half, and its key is the separator
    obtain ⟨front, entry, back, rfl, hlen⟩ :=
      exists_append_cons es (n := Layout.minDegree) (by rw [hcount]; decide)
    rw [List.length_append, List.length_cons] at hcount
    have hback : back.length + 1 = Layout.minDegree := by
      simp only [Layout.minDegree, Layout.maxKeys] at *
      omega
    refine ⟨_, _, _, .leaf hlen hback, split?_leaf id sibling next hlen, ?_, ?_⟩
    · rw [defect?_leaf, keys_leaf, List.length_map]
      simp only [Layout.minDegree, Layout.maxKeys] at *
      omega
    · rw [defect?_leaf, keys_leaf, List.length_map, List.length_cons]
      simp only [Layout.minDegree, Layout.maxKeys] at *
      omega
  | branch id keys children =>
    rw [keys_branch] at hcount
    -- the middle key is in neither half: it goes up as the separator
    have hchildren := (defect?_branch.1 hfit).2
    obtain ⟨front, key, back, rfl, hlen⟩ :=
      exists_append_cons keys (n := Layout.minDegree) (by rw [hcount]; decide)
    obtain ⟨ts, us, rfl, hts⟩ : ∃ ts us, children = ts ++ us ∧ ts.length = Layout.minDegree + 1 := by
      refine ⟨children.take (Layout.minDegree + 1), children.drop (Layout.minDegree + 1),
        (List.take_append_drop _ _).symm, ?_⟩
      rw [List.length_take, hchildren, hcount]
      decide
    rw [List.length_append, List.length_cons] at hcount
    rw [List.length_append, List.length_append, List.length_cons] at hchildren
    have hback : back.length + 1 = Layout.minDegree := by
      simp only [Layout.minDegree, Layout.maxKeys] at *
      omega
    refine ⟨_, _, _, .branch hlen hback (by rw [hts, hlen]), split?_branch id sibling hlen hts,
      ?_, ?_⟩
    · rw [defect?_branch, keys_branch]
      simp only [Layout.minDegree, Layout.maxKeys] at *
      omega
    · rw [defect?_branch, keys_branch]
      simp only [Layout.minDegree, Layout.maxKeys] at *
      omega

theorem insertIdx_length_append {α : Type} (front back : List α) (x : α) :
    (front ++ back).insertIdx front.length x = front ++ x :: back := by
  induction front with
  | nil => rfl
  | cons y front ih => rw [List.cons_append, List.length_cons, List.insertIdx_succ_cons, ih]; rfl

/-- **A branch whose child was split** has the separator and the sibling linked in. -/
theorem withChild_node (id : PageId) {key : Int32} {front : List Int32} (back : List Int32)
    {ts : List Tree} (us : List Tree) {c l r : Tree} {sibling : PageId}
    (hhalves : Halves sibling c l key r) (hlen : ts.length = front.length) :
    (branch id (front ++ back) (ts ++ c :: us)).node.withChild ts.length key sibling
      = (branch id (front ++ key :: back) (ts ++ l :: r :: us)).node := by
  -- the sibling comes right behind the child that was split
  have hchildren : ((ts ++ c :: us).map page).insertIdx (ts.length + 1) sibling
      = (ts ++ l :: r :: us).map page := by
    have hinsert := insertIdx_length_append (ts.map page ++ [c.page]) (us.map page) sibling
    rw [List.length_append, List.length_map, List.length_singleton] at hinsert
    simpa [hhalves.page_left, hhalves.page_right] using hinsert
  have hkeys : (front ++ back).insertIdx ts.length key = front ++ key :: back := by
    rw [hlen, insertIdx_length_append]
  simp only [Node.withChild, node, Node.children, hchildren, hkeys]

/-- **A leaf with one more entry**, behind those whose keys are not above its key. -/
theorem withEntry_node (id next : PageId) {es : List (Int32 × RowId)}
    (hsorted : (es.map (·.1)).Pairwise (· ≤ ·)) (key : Int32) (value : RowId) :
    ∃ front back, es = front ++ back ∧ (∀ e ∈ front, e.1 ≤ key) ∧ (∀ e ∈ back, key < e.1) ∧
      (leaf id es next).node.withEntry key value
        = (leaf id (front ++ (key, value) :: back) next).node := by
  have happend := List.takeWhile_append_dropWhile (p := fun e : Int32 × RowId => e.1 ≤ key) (l := es)
  refine ⟨es.takeWhile fun e => e.1 ≤ key, es.dropWhile fun e => e.1 ≤ key, happend.symm, ?_, ?_, ?_⟩
  · intro e he
    exact of_decide_eq_true (List.mem_takeWhile_imp (p := fun e : Int32 × RowId => e.1 ≤ key) he)
  · intro e he
    -- the keys are sorted, so all keys from the first larger one on are larger
    have hnot := not_of_mem_dropWhile (downward_le key) hsorted e.1 (by
      rw [List.dropWhile_map]
      exact List.mem_map.2 ⟨e, he, rfl⟩)
    rw [decide_eq_true_iff] at hnot
    exact Int32.not_le.1 hnot
  · have hplace : frontCount (· ≤ key) (es.map (·.1))
        = (es.takeWhile fun e => e.1 ≤ key).length := by
      rw [frontCount, List.takeWhile_map, List.length_map]
      rfl
    simp only [Node.withEntry, node, Node.values, hplace]
    generalize es.takeWhile (fun e => e.1 ≤ key) = front at happend
    generalize es.dropWhile (fun e => e.1 ≤ key) = back at happend
    subst happend
    have hkeys := insertIdx_length_append (front.map (·.1)) (back.map (·.1)) key
    have hvalues := insertIdx_length_append (front.map (·.2)) (back.map (·.2)) value
    rw [List.length_map] at hkeys hvalues
    simp only [List.map_append, List.map_cons, hkeys, hvalues, Node.next]

/-- **The pages of a branch and of one of its subtrees**, where no page is used twice. -/
theorem apart_of_nodup {id : PageId} {keys : List Int32} {ts us : List Tree} {c : Tree}
    (h : (branch id keys (ts ++ c :: us)).pages.Nodup) :
    (∀ u ∈ ts ++ c :: us, id ∉ u.pages) ∧ c.pages.Nodup ∧
      ∀ u ∈ ts ++ us, ∀ p ∈ u.pages, p ∉ c.pages := by
  rw [pages_branch, List.nodup_cons, List.nodup_flatMap] at h
  obtain ⟨hid, heach, hpairs⟩ := h
  refine ⟨fun u hu hmem => hid (List.mem_flatMap.2 ⟨u, hu, hmem⟩), heach c (by simp), ?_⟩
  obtain ⟨-, hright, hcross⟩ := List.pairwise_append.1 hpairs
  intro u hu p hpu hpc
  rcases List.mem_append.1 hu with hu | hu
  · exact hcross u hu c List.mem_cons_self hpu hpc
  · exact (List.pairwise_cons.1 hright).1 u hu hpc hpu

end Tree

namespace PageFile

open RowIndex.Tree

/-! ## (2) Grown trees in a file -/

/-- **A file that holds a grown tree**: the tree has gained pages that were not allocated before, and
all allocated pages outside it read as they did. -/
structure Grown (f g : PageFile) (t t' : Tree) : Prop where
  /-- The grown tree is held. -/
  held : g.Holds t'
  /-- The root is still the same page. -/
  root : g.root = f.root
  /-- The new pages are those of the new nodes. -/
  pages : ∃ new, t'.pages.Perm (new ++ t.pages) ∧ new.Nodup ∧
    (∀ p ∈ new, ¬ f.record.isAllocated p) ∧
      g.record.pages.toInt = f.record.pages.toInt + new.length
  /-- Nothing else is changed. -/
  frame : ∀ p, f.record.isAllocated p → p ∉ t.pages → g.readPage p = f.readPage p

/-- **A file that holds a tree with more nodes**, whatever page its root is: that of a grown tree, or
of one below a new root. -/
structure Gained (f g : PageFile) (t t' : Tree) : Prop where
  /-- The tree is held. -/
  held : g.Holds t'
  /-- The new pages are those of the new nodes. -/
  pages : ∃ new, t'.pages.Perm (new ++ t.pages) ∧ new.Nodup ∧
    (∀ p ∈ new, ¬ f.record.isAllocated p) ∧
      g.record.pages.toInt = f.record.pages.toInt + new.length
  /-- Nothing else is changed. -/
  frame : ∀ p, f.record.isAllocated p → p ∉ t.pages → g.readPage p = f.readPage p

namespace Gained

variable {f g k : PageFile} {t t' t'' : Tree}

/-- A tree that is held has gained nothing. -/
theorem refl (h : f.Holds t) : Gained f f t t :=
  ⟨h, ⟨[], .refl _, List.nodup_nil, by simp, by simp⟩, fun _ _ _ => rfl⟩

/-- Allocated pages stay allocated. -/
theorem isAllocated (h : Gained f g t t') {p : PageId} (hp : f.record.isAllocated p) :
    g.record.isAllocated p := by
  obtain ⟨new, -, -, -, hcount⟩ := h.pages
  rw [Metadata.isAllocated_iff] at hp ⊢
  omega

/-- A tree may gain nodes twice. -/
theorem trans (h : Gained f g t t') (h' : Gained g k t' t'') : Gained f k t t'' := by
  obtain ⟨new, hperm, hnew, hfresh, hcount⟩ := h.pages
  obtain ⟨new', hperm', hnew', hfresh', hcount'⟩ := h'.pages
  refine ⟨h'.held, ⟨new' ++ new, ?_, ?_, ?_, ?_⟩, ?_⟩
  · rw [List.append_assoc]
    exact hperm'.trans (hperm.append_left new')
  · refine List.nodup_append'.2 ⟨hnew', hnew, fun p hp' hp => hfresh' p hp' ?_⟩
    exact h.held.isAllocated (hperm.mem_iff.2 (List.mem_append_left _ hp))
  · intro p hp
    rcases List.mem_append.1 hp with hp | hp
    · exact fun ha => hfresh' p hp (h.isAllocated ha)
    · exact hfresh p hp
  · rw [hcount', hcount, List.length_append]
    omega
  · intro p hp hpt
    refine (h'.frame p (h.isAllocated hp) fun hpt' => ?_).trans (h.frame p hp hpt)
    rcases List.mem_append.1 (hperm.mem_iff.1 hpt') with hpnew | hpt'
    · exact hfresh p hpnew hp
    · exact hpt hpt'

end Gained

namespace Grown

variable {f g k : PageFile} {t t' t'' : Tree}

/-- A grown tree has gained nodes. -/
theorem gained (h : Grown f g t t') : Gained f g t t' :=
  ⟨h.held, h.pages, h.frame⟩

/-- Allocated pages stay allocated. -/
theorem isAllocated (h : Grown f g t t') {p : PageId} (hp : f.record.isAllocated p) :
    g.record.isAllocated p :=
  h.gained.isAllocated hp

/-- A tree stays as it is where there is no room. -/
theorem of_refused {failure : Failure} (hheld : f.Holds t) (h : Refused f failure g) :
    Grown f g t t where
  held := hheld.congr fun p _ => h.read p
  root := by rw [PageFile.root, PageFile.root, h.record]
  pages := ⟨[], .refl _, List.nodup_nil, by simp, by simp [h.record]⟩
  frame := fun p _ _ => h.read p

/-- The nodes of the grown tree lie on different pages. -/
theorem nodup (h : Grown f g t t') (hnodup : t.pages.Nodup)
    (hpages : ∀ p ∈ t.pages, f.record.isAllocated p) : t'.pages.Nodup := by
  obtain ⟨new, hperm, hnew, hfresh, -⟩ := h.pages
  refine hperm.nodup_iff.2 (List.nodup_append'.2 ⟨hnew, hnodup, ?_⟩)
  exact fun p hp hpt => hfresh p hp (hpages p hpt)

/-- A tree may grow twice. -/
theorem trans (h : Grown f g t t') (h' : Grown g k t' t'') : Grown f k t t'' := by
  have hgained := h.gained.trans h'.gained
  exact ⟨hgained.held, h'.root.trans h.root, hgained.pages, hgained.frame⟩

/-- **A subtree may grow in its place.** -/
theorem inside {id : PageId} {keys : List Int32} {ts us : List Tree} {c c' : Tree}
    (h : Grown f g c c') (hpage : c'.page = c.page)
    (hheld : f.Holds (branch id keys (ts ++ c :: us)))
    (hnodup : (branch id keys (ts ++ c :: us)).pages.Nodup) :
    Grown f g (branch id keys (ts ++ c :: us)) (branch id keys (ts ++ c' :: us)) := by
  obtain ⟨htop, hbelow⟩ := holds_branch_iff.1 hheld
  obtain ⟨hid, -, hothers⟩ := apart_of_nodup hnodup
  refine ⟨holds_branch_iff.2 ⟨?_, ?_⟩, h.root, ?_, ?_⟩
  · rw [h.frame id (isAllocated_of_readPage htop) (hid c (by simp)), htop]
    simp [node, hpage]
  · -- the other subtrees lie outside the one that has grown
    have houtside : ∀ u ∈ ts ++ us, g.Holds u := by
      intro u hu
      have hheldu : f.Holds u := hbelow u (by
        rcases List.mem_append.1 hu with hu | hu <;> simp [hu])
      exact hheldu.congr fun p hp => h.frame p (hheldu.isAllocated hp) (hothers u hu p hp)
    intro u hu
    rcases List.mem_append.1 hu with hu | hu
    · exact houtside u (List.mem_append_left _ hu)
    · rcases List.mem_cons.1 hu with rfl | hu
      · exact h.held
      · exact houtside u (List.mem_append_right _ hu)
  · obtain ⟨new, hperm, hnew, hfresh, hcount⟩ := h.pages
    refine ⟨new, ?_, hnew, hfresh, hcount⟩
    simp only [pages_branch, List.flatMap_append, List.flatMap_cons]
    exact perm_replace hperm id
  · intro p hp hpt
    refine h.frame p hp fun hpc => hpt ?_
    simp [hpc]

end Grown

/-! ## (3) Splitting a child -/

/-- What a split leaves on the pages: parent, sibling and child are written, in this order of
precedence. -/
theorem runOn_splitChild {f g : PageFile} {child : Node} {halves : Split} (parent : Node) (i : Nat)
    (hallocate : allocate.runOn f = (.ok f.nextPage, g))
    (hsplit : child.split? f.nextPage = some halves)
    (hleft : g.record.isAllocated halves.left.id) (hleftFits : halves.left.defect? = none)
    (hright : g.record.isAllocated halves.right.id) (hrightFits : halves.right.defect? = none)
    (hparent : g.record.isAllocated (parent.withChild i halves.separator f.nextPage).id)
    (hparentFits : (parent.withChild i halves.separator f.nextPage).defect? = none) :
    (splitChild parent i child).runOn f =
      (.ok (parent.withChild i halves.separator f.nextPage, halves.separator),
        ((g.withNode halves.left).withNode halves.right).withNode
          (parent.withChild i halves.separator f.nextPage)) := by
  rw [splitChild, Action.runOn_bind, hallocate]
  simp only [hsplit]
  rw [Action.runOn_bind, runOn_writePage_of_fits hleft hleftFits]
  simp only
  rw [Action.runOn_bind, runOn_writePage_of_fits (f := g.withNode _) hright hrightFits]
  simp only
  rw [Action.runOn_bind,
    runOn_writePage_of_fits (f := (g.withNode _).withNode _) hparent hparentFits]
  rfl

/-- What the pages read as after three nodes were written. -/
theorem readPage_writes {g : PageFile} {first second third : Node}
    (hfirst : g.record.isAllocated first.id) (hfirstFits : first.defect? = none)
    (hsecond : g.record.isAllocated second.id) (hsecondFits : second.defect? = none)
    (hthird : g.record.isAllocated third.id) (hthirdFits : third.defect? = none) (p : PageId) :
    (((g.withNode first).withNode second).withNode third).readPage p =
      if p = third.id then .ok third
      else if p = second.id then .ok second
      else if p = first.id then .ok first
      else g.readPage p := by
  rw [readPage_withNode hthirdFits (f := (g.withNode first).withNode second) hthird,
    readPage_withNode hsecondFits (f := g.withNode first) hsecond,
    readPage_withNode hfirstFits hfirst]

/-- **A parent whose child was split is held**, once parent and halves are on their pages. -/
theorem grown_of_halves {f g : PageFile} {id : PageId} {key : Int32} {front back : List Int32}
    {ts us : List Tree} {c l r : Tree} (hhalves : Halves f.nextPage c l key r)
    (hlen : ts.length = front.length) (hheld : ∀ u ∈ ts ++ c :: us, f.Holds u)
    (hnodup : (branch id (front ++ back) (ts ++ c :: us)).pages.Nodup)
    (hparent : g.readPage id = .ok (branch id (front ++ key :: back) (ts ++ l :: r :: us)).node)
    (hleft : g.readPage l.page = .ok l.node) (hright : g.readPage r.page = .ok r.node)
    (hkept : ∀ p, f.record.isAllocated p → p ≠ id → p ≠ c.page → g.readPage p = f.readPage p)
    (hroot : g.root = f.root) (hcount : g.record.pages.toInt = f.record.pages.toInt + 1) :
    Grown f g (branch id (front ++ back) (ts ++ c :: us))
      (branch id (front ++ key :: back) (ts ++ l :: r :: us)) := by
  obtain ⟨hid, hcnodup, hothers⟩ := apart_of_nodup hnodup
  have hc := hheld c (by simp)
  -- of the child only the node at its top was written
  have hbelow : ∀ s ∈ c.subtrees.tail, g.readPage s.page = .ok s.node := by
    intro s hs
    have hmem := List.mem_of_mem_tail hs
    rw [hkept s.page (isAllocated_of_readPage (hc s hmem)) ?_ (page_ne_of_mem_tail hcnodup hs)]
    · exact hc s hmem
    · intro hpage
      exact hid c (by simp) (List.mem_map.2 ⟨s, hmem, hpage⟩)
  -- the other children share no page with the child or the parent
  have houtside : ∀ u ∈ ts ++ us, g.Holds u := by
    intro u hu
    have hmem : u ∈ ts ++ c :: us := by
      rcases List.mem_append.1 hu with hu | hu <;> simp [hu]
    refine (hheld u hmem).congr fun p hp => hkept p ((hheld u hmem).isAllocated hp) ?_ ?_
    · rintro rfl
      exact hid u hmem hp
    · rintro rfl
      exact hothers u hu _ hp (page_mem_pages c)
  refine ⟨holds_branch_iff.2 ⟨hparent, fun u hu => ?_⟩, hroot, ⟨[f.nextPage], ?_, ?_, ?_, ?_⟩, ?_⟩
  · rcases List.mem_append.1 hu with hu | hu
    · exact houtside u (List.mem_append_left _ hu)
    rcases List.mem_cons.1 hu with rfl | hu
    · intro s hs
      rcases hhalves.of_mem_left hs with rfl | hs
      · exact hleft
      · exact hbelow s hs
    rcases List.mem_cons.1 hu with rfl | hu
    · intro s hs
      rcases hhalves.of_mem_right hs with rfl | hs
      · exact hright
      · exact hbelow s hs
    · exact houtside u (List.mem_append_right _ hu)
  · exact (Tree.Split.here hhalves hlen).pages_perm
  · exact List.nodup_singleton _
  · exact List.forall_mem_singleton.2 (not_isAllocated_nextPage f)
  · simpa using hcount
  · intro p hp hpt
    refine hkept p hp ?_ ?_
    · rintro rfl
      exact hpt (page_mem_pages _)
    · rintro rfl
      exact hpt (by simp [page_mem_pages])

/-- **All that splitting a full child can do to the pages**: there is no room and nothing changes, or
parent and halves are on their pages and all others read as before. The parent itself need not be in the
file yet. -/
theorem splitChild_pages_cases {f : PageFile} {n : Node} {c : Tree} (i : Nat)
    (hn : f.record.isAllocated n.id)
    (hfit : ∀ key, (n.withChild i key f.nextPage).defect? = none)
    (hc : f.readPage c.page = .ok c.node) (hne : c.page ≠ n.id) (hfull : c.node.isFull) :
    (∃ failure g, (splitChild n i c.node).runOn f = (.error failure, g) ∧ Refused f failure g) ∨
    ∃ g key l r, Halves f.nextPage c l key r ∧
      (l.keys.length < Layout.maxKeys ∧ r.keys.length < Layout.maxKeys) ∧
      (splitChild n i c.node).runOn f = (.ok (n.withChild i key f.nextPage, key), g) ∧
      g.readPage n.id = .ok (n.withChild i key f.nextPage) ∧
      (g.readPage l.page = .ok l.node ∧ g.readPage r.page = .ok r.node) ∧
      (∀ p, f.record.isAllocated p → p ≠ n.id → p ≠ c.page → g.readPage p = f.readPage p) ∧
      g.root = f.root ∧ g.record.pages.toInt = f.record.pages.toInt + 1 := by
  rcases allocate_cases f with ⟨failure, g, hrun, hrefused⟩ | ⟨g, hrun, hallocated⟩
  · refine Or.inl ⟨failure, g, ?_, hrefused⟩
    rw [splitChild, Action.runOn_bind, hrun]
  right
  obtain ⟨l, key, r, hhalves, hsplit, ⟨hl, hlfits⟩, hr, hrfits⟩ :=
    exists_halves (defect?_of_readPage hc) hfull f.nextPage
  have hcpage := isAllocated_of_readPage hc
  have hleft : g.record.isAllocated l.node.id := by
    rw [id_node, hhalves.page_left]
    exact hallocated.isAllocated hcpage
  have hright : g.record.isAllocated r.node.id := by
    rw [id_node, hhalves.page_right]
    exact hallocated.isAllocated_nextPage (Metadata.one_le_pages_of_isAllocated hn)
  have hparent : g.record.isAllocated (n.withChild i key f.nextPage).id := hallocated.isAllocated hn
  -- three pages are written: both halves, and the parent
  have hwrites := runOn_splitChild n i hrun hsplit hleft hlfits hright hrfits hparent (hfit key)
  have hread := readPage_writes hleft hlfits hright hrfits hparent (hfit key)
  have hrecord : (((g.withNode l.node).withNode r.node).withNode
      (n.withChild i key f.nextPage)).record = g.record := by simp only [record_withNode]
  generalize ((g.withNode l.node).withNode r.node).withNode (n.withChild i key f.nextPage) = k
    at hwrites hread hrecord
  have hid : (n.withChild i key f.nextPage).id = n.id := rfl
  simp only [hid, id_node, hhalves.page_left, hhalves.page_right] at hread
  -- no two of the three pages are the same
  have hnew : ∀ p, f.record.isAllocated p → p ≠ f.nextPage := by
    rintro p hp rfl
    exact not_isAllocated_nextPage f hp
  refine ⟨k, key, l, r, hhalves, ⟨hl, hr⟩, hwrites, ?_, ⟨?_, ?_⟩, fun p hp hpn hpc => ?_, ?_, ?_⟩
  · rw [hread, if_pos rfl]
  · rw [hread, hhalves.page_left, if_neg hne, if_neg (hnew _ hcpage), if_pos rfl]
  · rw [hread, hhalves.page_right, if_neg (hnew _ hn).symm, if_pos rfl]
  · rw [hread, if_neg hpn, if_neg (hnew p hp), if_neg hpc, hallocated.read p hp]
  · rw [root, hrecord]
    exact hallocated.root
  · rw [hrecord]
    exact hallocated.toInt_pages

/-- **All that splitting a full child can do**: there is no room and nothing changes, or the child's
halves are linked into the parent. The parent itself need not be in the file yet. -/
theorem splitChild_cases {f : PageFile} {id : PageId} {front back : List Int32}
    {ts us : List Tree} {c : Tree} (hheld : ∀ u ∈ ts ++ c :: us, f.Holds u)
    (hid : f.record.isAllocated id)
    (hnodup : (branch id (front ++ back) (ts ++ c :: us)).pages.Nodup)
    (hfront : ts.length = front.length) (hback : us.length = back.length)
    (hroom : (front ++ back).length < Layout.maxKeys) (hfull : c.node.isFull) :
    (∃ failure g,
      (splitChild (branch id (front ++ back) (ts ++ c :: us)).node ts.length c.node).runOn f
        = (.error failure, g) ∧ Refused f failure g) ∨
    ∃ g key l r, Halves f.nextPage c l key r ∧
      (l.keys.length < Layout.maxKeys ∧ r.keys.length < Layout.maxKeys) ∧
      (splitChild (branch id (front ++ back) (ts ++ c :: us)).node ts.length c.node).runOn f
        = (.ok ((branch id (front ++ key :: back) (ts ++ l :: r :: us)).node, key), g) ∧
      Grown f g (branch id (front ++ back) (ts ++ c :: us))
        (branch id (front ++ key :: back) (ts ++ l :: r :: us)) := by
  have hne : c.page ≠ (branch id (front ++ back) (ts ++ c :: us)).node.id := by
    rw [id_node, page_branch]
    rintro rfl
    exact (apart_of_nodup hnodup).1 c (by simp) (page_mem_pages c)
  -- room for one more key in the parent, since it was not full
  have hfit : ∀ key, ((branch id (front ++ back) (ts ++ c :: us)).node.withChild ts.length key
      f.nextPage).defect? = none := by
    have hcount : (ts ++ c :: us).length = (front ++ back).length + 1 := by
      simp only [List.length_append, List.length_cons]
      omega
    have hplace : ts.length ≤ (front ++ back).length := by
      rw [List.length_append]
      omega
    exact fun key => defect?_withChild (defect?_branch.2 ⟨Nat.le_of_lt hroom, hcount⟩)
      (by simp [node, Node.isLeaf]) hroom hplace key _
  rcases splitChild_pages_cases ts.length (by rwa [id_node]) hfit
    (hheld c (by simp)).readPage hne hfull with
    hrefused | ⟨g, key, l, r, hhalves, hrooms, hrun, hparent, ⟨hl, hr⟩, hkept, hroot, hcount⟩
  · exact Or.inl hrefused
  rw [withChild_node id back us hhalves hfront] at hrun hparent
  rw [id_node, page_branch] at hparent hkept
  exact Or.inr ⟨g, key, l, r, hhalves, hrooms, hrun,
    grown_of_halves hhalves hfront hheld hnodup hparent hl hr hkept hroot hcount⟩

/-- **All that splitting a full root can do**, below a new root that is not in the file yet. -/
theorem splitRoot_cases {f : PageFile} {id : PageId} {t : Tree} (hheld : f.Holds t)
    (hid : f.record.isAllocated id) (hfresh : id ∉ t.pages) (hnodup : t.pages.Nodup)
    (hfull : t.node.isFull) :
    (∃ failure g, (splitChild (Node.overChild id t.page) 0 t.node).runOn f = (.error failure, g) ∧
      Refused f failure g) ∨
    ∃ g key l r, Halves f.nextPage t l key r ∧
      (splitChild (Node.overChild id t.page) 0 t.node).runOn f
        = (.ok ((branch id [key] [l, r]).node, key), g) ∧
      Grown f g (branch id [] [t]) (branch id [key] [l, r]) := by
  -- the new root is a branch with no separator and one child
  have hnodup' : (branch id ([] ++ []) ([] ++ t :: [])).pages.Nodup := by
    rw [pages_branch, List.nodup_cons]
    exact ⟨by simpa using hfresh, by simpa using hnodup⟩
  have hheld' : ∀ u ∈ ([] : List Tree) ++ t :: ([] : List Tree), f.Holds u :=
    List.forall_mem_singleton.2 hheld
  rcases splitChild_cases hheld' hid hnodup' rfl rfl (by decide) hfull with
    hrefused | ⟨g, key, l, r, hhalves, -, hrun, hgrown⟩
  · exact Or.inl hrefused
  · exact Or.inr ⟨g, key, l, r, hhalves, hrun, hgrown⟩

/-! ## (4) Inserting below a node -/

/-- **What an insertion below a node comes to.** -/
inductive InsertedBelow (key : Int32) (value : RowId) (f : PageFile) (t : Tree) :
    Except Failure Unit × PageFile → Prop
  /-- The entry was put, after some splits. -/
  | done {g : PageFile} {t' t'' : Tree} :
      Splits t t' → Put key value t' t'' → Grown f g t t'' → InsertedBelow key value f t (.ok (), g)
  /-- There was no room for another page, after some splits. -/
  | refused {failure : Failure} {g : PageFile} {t' : Tree} :
      g.NoRoom failure → Splits t t' → Grown f g t t' →
        InsertedBelow key value f t (.error failure, g)

namespace InsertedBelow

variable {key : Int32} {value : RowId} {f g : PageFile} {t t' : Tree}
  {outcome : Except Failure Unit × PageFile}

/-- What comes after a split. -/
theorem after (hsplits : Splits t t') (hgrown : Grown f g t t')
    (h : InsertedBelow key value g t' outcome) : InsertedBelow key value f t outcome := by
  cases h with
  | done hsplits' hput hgrown' => exact .done (hsplits.trans hsplits') hput (hgrown.trans hgrown')
  | refused hnoroom hsplits' hgrown' =>
    exact .refused hnoroom (hsplits.trans hsplits') (hgrown.trans hgrown')

/-- **An insertion below the child that the key belongs to** is one below the parent. -/
theorem inside {id : PageId} {front back : List Int32} {ts us : List Tree} {c : Tree}
    (hfront : ∀ k ∈ front, k ≤ key) (hback : ∀ k ∈ back, key < k) (hlen : ts.length = front.length)
    (hheld : f.Holds (branch id (front ++ back) (ts ++ c :: us)))
    (hnodup : (branch id (front ++ back) (ts ++ c :: us)).pages.Nodup)
    (h : InsertedBelow key value f c outcome) :
    InsertedBelow key value f (branch id (front ++ back) (ts ++ c :: us)) outcome := by
  cases h with
  | done hsplits hput hgrown =>
    exact .done (hsplits.inside _ _ _ _) (.branch hfront hback hlen hput)
      (hgrown.inside (hput.page.trans hsplits.page) hheld hnodup)
  | refused hnoroom hsplits hgrown =>
    exact .refused hnoroom (hsplits.inside _ _ _ _) (hgrown.inside hsplits.page hheld hnodup)

end InsertedBelow

/-- A file with another leaf on a leaf's page. -/
theorem grown_withNode {f : PageFile} {id next : PageId} {es es' : List (Int32 × RowId)}
    (ha : f.record.isAllocated id) (hfit : (leaf id es' next).node.defect? = none) :
    Grown f (f.withNode (leaf id es' next).node) (leaf id es next) (leaf id es' next) where
  held := by rw [holds_leaf_iff, readPage_withNode hfit ha, id_node, page_leaf, if_pos rfl]
  root := rfl
  pages := ⟨[], by simp, List.nodup_nil, by simp, by simp⟩
  frame p hp hpt := by
    rw [readPage_withNode hfit ha, id_node, page_leaf, if_neg]
    simpa using hpt

/-- A child of a held branch is read at its place. -/
theorem read_child {f : PageFile} {id : PageId} {keys : List Int32} {ts us : List Tree} {c : Tree}
    (h : f.Holds (branch id keys (ts ++ c :: us))) :
    (childAt (branch id keys (ts ++ c :: us)).node.children ts.length >>= f.readPage)
      = .ok c.node := by
  show (childAt ((ts ++ c :: us).map page) ts.length >>= f.readPage) = .ok c.node
  rw [childAt_map_page]
  exact ((holds_branch_iff.1 h).2 c (by simp)).readPage

/-- **Insertion below an internal node, step by step**: the child that the key belongs to is read, and
split if it is full. -/
theorem runOn_insertBelow_internal (key : Int32) (value : RowId) (fuel : Nat) (f : PageFile)
    {node : Node} (hinner : ¬ node.isLeaf) :
    (insertBelow key value (fuel + 1) node).runOn f =
      match childAt node.children (Route.insertion key node.keys) >>= f.readPage with
      | .error failure => (.error failure, f)
      | .ok child =>
        if child.isFull then
          match (splitChild node (Route.insertion key node.keys) child).runOn f with
          | (.error failure, g) => (.error failure, g)
          | (.ok (parent, separator), g) =>
            let place :=
              if separator ≤ key then Route.insertion key node.keys + 1
              else Route.insertion key node.keys
            match childAt parent.children place >>= g.readPage with
            | .error failure => (.error failure, g)
            | .ok half => (insertBelow key value fuel half).runOn g
        else (insertBelow key value fuel child).runOn f := by
  obtain ⟨id, keys, body⟩ := node
  cases body with
  | leaf values next => exact absurd rfl hinner
  | internal children =>
    rw [insertBelow.eq_def]
    simp only
    rw [Action.runOn_bind, Action.runOn_ask]
    rcases childAt _ (Route.insertion key keys) >>= f.readPage with failure | child
    · rfl
    simp only
    -- a full child is split on the way down, before anything is put below it
    by_cases hfull : child.isFull
    · simp only [if_pos hfull]
      rw [Action.runOn_bind]
      rcases (splitChild _ _ child).runOn f with ⟨failure | ⟨parent, separator⟩, g⟩
      · rfl
      simp only
      rw [Action.runOn_bind, Action.runOn_ask]
      rcases childAt parent.children _ >>= g.readPage with failure | half <;> rfl
    · simp only [if_neg hfull]

/-- Insertion into a branch, step by step. -/
theorem runOn_insertBelow_branch (key : Int32) (value : RowId) (fuel : Nat) (f : PageFile)
    {id : PageId} {keys : List Int32} {ts us : List Tree} {c : Tree}
    (hroute : Route.insertion key keys = ts.length)
    (hheld : f.Holds (branch id keys (ts ++ c :: us))) :
    (insertBelow key value (fuel + 1) (branch id keys (ts ++ c :: us)).node).runOn f =
      if c.node.isFull then
        match (splitChild (branch id keys (ts ++ c :: us)).node ts.length c.node).runOn f with
        | (.error failure, g) => (.error failure, g)
        | (.ok (parent, separator), g) =>
          let place := if separator ≤ key then ts.length + 1 else ts.length
          match childAt parent.children place >>= g.readPage with
          | .error failure => (.error failure, g)
          | .ok half => (insertBelow key value fuel half).runOn g
      else (insertBelow key value fuel c.node).runOn f := by
  have hinner : ¬ (branch id keys (ts ++ c :: us)).node.isLeaf := by simp [node, Node.isLeaf]
  rw [runOn_insertBelow_internal key value fuel f hinner, keys_node, keys_branch, hroute,
    read_child hheld]

/-- **Writing a leaf with one entry more**, which goes behind those whose keys are not above its key. -/
theorem exists_runOn_withEntry (key : Int32) (value : RowId) {f : PageFile} {id next : PageId}
    {es : List (Int32 × RowId)} (hread : f.Holds (leaf id es next))
    (hsorted : (es.map (·.1)).Pairwise (· ≤ ·)) (hroom : es.length < Layout.maxKeys) :
    ∃ front back, es = front ++ back ∧ (∀ e ∈ front, e.1 ≤ key) ∧ (∀ e ∈ back, key < e.1) ∧
      (writePage ((leaf id es next).node.withEntry key value)).runOn f
        = (.ok (), f.withNode (leaf id (front ++ (key, value) :: back) next).node) ∧
      Grown f (f.withNode (leaf id (front ++ (key, value) :: back) next).node) (leaf id es next)
        (leaf id (front ++ (key, value) :: back) next) := by
  obtain ⟨front, back, rfl, hfront, hback, hentry⟩ := withEntry_node id next hsorted key value
  have ha : f.record.isAllocated id := isAllocated_of_readPage hread.readPage
  have hnode : f.record.isAllocated (leaf id (front ++ (key, value) :: back) next).node.id := ha
  have hfit : (leaf id (front ++ (key, value) :: back) next).node.defect? = none := by
    rw [defect?_leaf]
    simp only [List.length_append, List.length_cons] at hroom ⊢
    omega
  refine ⟨front, back, rfl, hfront, hback, ?_, grown_withNode ha hfit⟩
  rw [hentry, runOn_writePage_of_fits hnode hfit]

theorem runOn_insertBelow_leaf (key : Int32) (value : RowId) (fuel : Nat) {f : PageFile}
    {id next : PageId} {es : List (Int32 × RowId)} (hread : f.Holds (leaf id es next))
    (hsorted : (es.map (·.1)).Pairwise (· ≤ ·)) (hroom : es.length < Layout.maxKeys) :
    InsertedBelow key value f (leaf id es next)
      ((insertBelow key value fuel (leaf id es next).node).runOn f) := by
  obtain ⟨front, back, rfl, hfront, hback, hrun, hgrown⟩ :=
    exists_runOn_withEntry key value hread hsorted hroom
  rw [insertBelow.eq_def]
  change InsertedBelow key value f _
    ((writePage ((leaf id (front ++ back) next).node.withEntry key value)).runOn f)
  rw [hrun]
  exact .done (Splits.refl _) (.leaf hfront hback) hgrown

/-- The keys of a node on both sides of the place where a key belongs. -/
theorem exists_route {keys : List Int32} (hsorted : keys.Pairwise (· ≤ ·)) (key : Int32) :
    ∃ front back, keys = front ++ back ∧ (∀ k ∈ front, k ≤ key) ∧ (∀ k ∈ back, key < k) ∧
      Route.insertion key keys = front.length := by
  refine ⟨keys.takeWhile (· ≤ key), keys.dropWhile (· ≤ key),
    List.takeWhile_append_dropWhile.symm, fun k hk => ?_, fun k hk => ?_, rfl⟩
  · exact of_decide_eq_true (List.mem_takeWhile_imp (p := (· ≤ key)) hk)
  · have hnot := not_of_mem_dropWhile (downward_le key) hsorted k hk
    rw [decide_eq_true_iff] at hnot
    exact Int32.not_le.1 hnot

/-- **Going on below the half that the key belongs to**, once a child was split, when going on below
any child that the key belongs to is an insertion below the parent. -/
theorem insertedBelow_half {f g : PageFile} {key separator : Int32} {value : RowId} {fuel : Nat}
    {id : PageId} {front back : List Int32} {ts us : List Tree} {c l r : Tree}
    (hsplit : Tree.Split f.nextPage (branch id (front ++ back) (ts ++ c :: us))
      (branch id (front ++ separator :: back) (ts ++ l :: r :: us)))
    (hgrown : Grown f g (branch id (front ++ back) (ts ++ c :: us))
      (branch id (front ++ separator :: back) (ts ++ l :: r :: us)))
    (hlen : ts.length = front.length) (hfront : ∀ k ∈ front, k ≤ key) (hback : ∀ k ∈ back, key < k)
    (hbelow : ∀ front' back' ts' us' c', front ++ separator :: back = front' ++ back' →
      ts ++ l :: r :: us = ts' ++ c' :: us' → ts'.length = front'.length →
      (∀ k ∈ front', k ≤ key) → (∀ k ∈ back', key < k) → c' ∈ [l, r] →
      InsertedBelow key value g (branch id (front' ++ back') (ts' ++ c' :: us'))
        ((insertBelow key value fuel c'.node).runOn g)) :
    InsertedBelow key value f (branch id (front ++ back) (ts ++ c :: us))
      (match childAt (branch id (front ++ separator :: back) (ts ++ l :: r :: us)).node.children
          (if separator ≤ key then ts.length + 1 else ts.length) >>= g.readPage with
        | .error failure => (.error failure, g)
        | .ok half => (insertBelow key value fuel half).runOn g) := by
  refine .after (.single hsplit) hgrown ?_
  have hgheld := hgrown.held
  by_cases hside : separator ≤ key
  · -- the key belongs below the second half
    have hplace : ts.length + 1 = (ts ++ [l]).length := by simp
    rw [if_pos hside, hplace]
    rw [List.append_cons front, List.append_cons ts] at hgheld ⊢
    rw [read_child hgheld]
    refine hbelow _ back _ us r (List.append_cons ..) (List.append_cons ..) (by simp [hlen]) ?_ hback
      (by simp)
    intro k hk
    rcases List.mem_append.1 hk with hk | hk
    · exact hfront k hk
    · rwa [List.mem_singleton.1 hk]
  · rw [if_neg hside, read_child hgheld]
    refine hbelow front _ ts _ l rfl rfl hlen hfront ?_ (by simp)
    intro k hk
    rcases List.mem_cons.1 hk with rfl | hk
    · exact Int32.not_le.1 hside
    · exact hback k hk

/-- **All that an insertion below a node with room can do.** -/
theorem insertBelow_cases (key : Int32) (value : RowId) {t : Tree} {height : Nat} {f : PageFile}
    {lower upper : Option Int32} {fuel : Nat} (hheld : f.Holds t) (hnodup : t.pages.Nodup)
    (hordered : Ordered height lower upper t) (hroom : t.keys.length < Layout.maxKeys)
    (hfuel : height ≤ fuel) :
    InsertedBelow key value f t ((insertBelow key value fuel t.node).runOn f) := by
  induction height generalizing t f lower upper fuel with
  | zero =>
    match t, hordered with
    | .leaf id es next, hordered =>
      rw [keys_leaf, List.length_map] at hroom
      exact runOn_insertBelow_leaf key value fuel hheld (ordered_leaf_iff.1 hordered).sorted hroom
  | succ height ih =>
    match t, hordered with
    | .branch id keys children, hordered =>
      obtain ⟨fuel, rfl⟩ : ∃ n, fuel = n + 1 := ⟨fuel - 1, by omega⟩
      -- wherever the key belongs, going on below that child is enough
      have hbelow : ∀ (g : PageFile) (front back : List Int32) (ts us : List Tree) (c : Tree),
          g.Holds (branch id (front ++ back) (ts ++ c :: us)) →
          (branch id (front ++ back) (ts ++ c :: us)).pages.Nodup →
          Ordered (height + 1) lower upper (branch id (front ++ back) (ts ++ c :: us)) →
          ts.length = front.length → (∀ k ∈ front, k ≤ key) → (∀ k ∈ back, key < k) →
          c.keys.length < Layout.maxKeys →
          InsertedBelow key value g (branch id (front ++ back) (ts ++ c :: us))
            ((insertBelow key value fuel c.node).runOn g) := by
        intro g front back ts us c hheld hnodup hordered hlen hfront hback hroom
        have hc := ((ordered_branch_iff.1 hordered).2.2.focus hlen).1
        exact .inside hfront hback hlen hheld hnodup
          (ih ((holds_branch_iff.1 hheld).2 c (by simp)) (apart_of_nodup hnodup).2.1 hc hroom
            (Nat.le_of_succ_le_succ hfuel))
      obtain ⟨-, hkeys, hrow⟩ := ordered_branch_iff.1 hordered
      obtain ⟨front, back, rfl, hfront, hback, hroute⟩ := exists_route hkeys.sorted key
      obtain ⟨ts, c, us, rfl, hlen⟩ := exists_append_cons children (n := front.length) (by
        rw [hrow.length_eq, List.length_append]
        omega)
      rw [runOn_insertBelow_branch key value fuel f (hroute.trans hlen.symm) hheld]
      by_cases hfull : c.node.isFull
      · rw [if_pos hfull]
        have hlenBack : us.length = back.length := by
          have hlength := hrow.length_eq
          rw [List.length_append, List.length_append, List.length_cons] at hlength
          omega
        -- the halves are linked in, and the key may belong below either of them
        have hid : f.record.isAllocated id := isAllocated_of_readPage hheld.readPage
        rcases splitChild_cases (holds_branch_iff.1 hheld).2 hid hnodup hlen hlenBack hroom hfull
          with ⟨failure, g, hrun, hrefused⟩ | ⟨g, separator, l, r, hhalves, ⟨hl, hr⟩, hrun, hgrown⟩
        · rw [hrun]
          exact .refused hrefused.noRoom (Splits.refl _) (.of_refused hheld hrefused)
        · rw [hrun]
          have hsplit : Tree.Split f.nextPage (branch id (front ++ back) (ts ++ c :: us))
              (branch id (front ++ separator :: back) (ts ++ l :: r :: us)) := .here hhalves hlen
          have hnodup' := hgrown.nodup hnodup fun p hp => hheld.isAllocated hp
          refine insertedBelow_half hsplit hgrown hlen hfront hback ?_
          intro front' back' ts' us' c' hkeys' hchildren' hlen' hfront' hback' hc'
          have hroom' : c'.keys.length < Layout.maxKeys := by
            rcases List.mem_pair.1 hc' with rfl | rfl
            · exact hl
            · exact hr
          have hgheld := hgrown.held
          have hordered' := hsplit.ordered hordered
          rw [hkeys', hchildren'] at hgheld hordered' hnodup'
          exact hbelow g front' back' ts' us' c' hgheld hnodup' hordered' hlen' hfront' hback' hroom'
      · rw [if_neg hfull]
        refine hbelow f front back ts us c hheld hnodup hordered hlen hfront hback ?_
        simpa [Node.isFull] using hfull

/-! ## (5) Inserting into a file -/

/-- **What an insertion comes to** in a file that lists the entries `before`. -/
inductive Inserted (key : Int32) (value : RowId) (f : PageFile) (before : List (Int32 × RowId)) :
    Except Failure Unit × PageFile → Prop
  /-- The entry was put behind those whose keys are not above its key. -/
  | done {g : PageFile} {front back : List (Int32 × RowId)} :
      before = front ++ back → (∀ e ∈ front, e.1 ≤ key) → (∀ e ∈ back, key < e.1) →
        g.Lists (front ++ (key, value) :: back) → Inserted key value f before (.ok (), g)
  /-- There was no room for another page, and the file lists what it did. -/
  | refused {failure : Failure} {g : PageFile} :
      (1 ≤ f.record.pages.toInt → g.NoRoom failure) → g.Lists before →
        Inserted key value f before (.error failure, g)

namespace Carries

variable {f g : PageFile} {height : Nat} {t t' : Tree}

/-- A grown tree is carried. -/
theorem of_grown (h : f.Carries height t) (hgrown : Grown f g t t') (hpage : t'.page = t.page)
    (hordered : Ordered height none none t')
    (hlinked : ∀ stop, Linked t.leaves stop → Linked t'.leaves stop) : g.Carries height t' where
  page := by rw [hpage, h.page, hgrown.root]
  held := hgrown.held
  ordered := hordered
  linked := by
    obtain ⟨stop, hstop, hleaves⟩ := h.linked
    exact ⟨stop, hstop, hlinked stop hleaves⟩

/-- **A put after some splits** leaves a tree that is carried and has one entry more. -/
theorem of_put (h : f.Carries height t) {key : Int32} {value : RowId} {t'' : Tree}
    (hsplits : Splits t t') (hput : Put key value t' t'') (hgrown : Grown f g t t'') :
    g.Carries height t'' ∧ ∃ front back, t.entries = front ++ back ∧
      t''.entries = front ++ (key, value) :: back ∧ (∀ e ∈ front, e.1 ≤ key) ∧
        ∀ e ∈ back, key < e.1 := by
  have hordered := hsplits.ordered h.ordered
  obtain ⟨front, back, hbefore, hafter, hfront, hback⟩ := hput.entries hordered
  have hcarries := h.of_grown hgrown (hput.page.trans hsplits.page)
    (hput.ordered hordered (within_none key)) fun stop hlinked => hput.linked (hsplits.linked hlinked)
  exact ⟨hcarries, front, back, hsplits.entries.symm.trans hbefore, hafter, hfront, hback⟩

/-- An insertion below the root is one into the file. -/
theorem inserted {key : Int32} {value : RowId} {outcome : Except Failure Unit × PageFile}
    (h : f.Carries height t) (houtcome : InsertedBelow key value f t outcome) :
    Inserted key value f t.entries outcome := by
  cases houtcome with
  | done hsplits hput hgrown =>
    obtain ⟨hcarries, front, back, hbefore, hafter, hfront, hback⟩ := h.of_put hsplits hput hgrown
    exact .done hbefore hfront hback (hafter ▸ .tree hcarries)
  | refused hnoroom hsplits hgrown =>
    have hcarries := h.of_grown hgrown hsplits.page (hsplits.ordered h.ordered)
      fun stop hlinked => hsplits.linked hlinked
    exact .refused (fun _ => hnoroom) (hsplits.entries ▸ .tree hcarries)

/-- An allocation changes nothing about the tree. -/
theorem allocated (h : f.Carries height t) (hallocated : Allocated f g) : g.Carries height t where
  page := by rw [h.page, hallocated.root]
  held := h.held.congr fun p hp => hallocated.read p (h.held.isAllocated hp)
  ordered := h.ordered
  linked := h.linked

/-- **A root that was split** hangs below the new root with its halves. -/
theorem withRoot_of_halves (h : f.Carries height t) {id : PageId} {key : Int32} {l r : Tree}
    (hhalves : Halves f.nextPage t l key r) (hheld : g.Holds (branch id [key] [l, r])) :
    (g.withRoot id).Carries (height + 1) (branch id [key] [l, r]) where
  page := rfl
  held := hheld.congr fun p _ => readPage_withRoot g id p
  ordered := ordered_branch_iff.2
    ⟨List.cons_ne_nil _ _, KeysFit.singleton (within_none key), hhalves.row h.ordered⟩
  linked := by
    -- the halves follow each other as the leaves of the old root did
    obtain ⟨stop, hstop, hlinked⟩ := h.linked
    exact ⟨stop, hstop, by simpa using hhalves.linked hlinked⟩

end Carries

/-- An insertion may pass as many nodes as there are pages. -/
theorem lt_insertionBound (n : Nat) : n < insertionBound n := by
  have hle : 1 * (4 * n + 4) ≤ (3 * n + 2) * (4 * n + 4) := Nat.mul_le_mul_right _ (by omega)
  unfold insertionBound
  omega

/-- What an insertion comes to, said of an earlier file. -/
theorem Inserted.mono {key : Int32} {value : RowId} {f g : PageFile} {before : List (Int32 × RowId)}
    {outcome : Except Failure Unit × PageFile} (h : Inserted key value g before outcome)
    (hpages : 1 ≤ f.record.pages.toInt → 1 ≤ g.record.pages.toInt) :
    Inserted key value f before outcome := by
  cases h with
  | done hbefore hfront hback hlists => exact .done hbefore hfront hback hlists
  | refused hnoroom hlists => exact .refused (fun hone => hnoroom (hpages hone)) hlists

/-- A file with a leaf of one entry as its root. -/
theorem carries_lone {f : PageFile} {id : PageId} (ha : f.record.isAllocated id) (key : Int32)
    (value : RowId) :
    ((f.withNode (leaf id [(key, value)] .none).node).withRoot id).Carries 0
      (leaf id [(key, value)] .none) := by
  have hfits : (leaf id [(key, value)] .none).node.defect? = none :=
    defect?_leaf.2 (by rw [List.length_singleton]; decide)
  have hgrown : Grown f _ (leaf id [] .none) (leaf id [(key, value)] .none) :=
    grown_withNode ha hfits
  exact
    { page := rfl
      held := hgrown.held.congr fun p _ => readPage_withRoot _ id p
      ordered := ordered_leaf_iff.2 (KeysFit.singleton (within_none key))
      linked := ⟨.none, by decide, by simp⟩ }

/-- **All that an insertion can do** in a file without a root: there is no room, or a leaf becomes the
root, unless page 0 is not counted. -/
theorem insertValue_unrooted_cases {f : PageFile} (hroot : ¬ f.root.isValid) (key : Int32)
    (value : RowId) :
    (∃ failure g, (insertValue key value).runOn f = (.error failure, g) ∧ Refused f failure g) ∨
      (∃ g, (insertValue key value).runOn f = (.ok (), g) ∧
        g.Carries 0 (leaf f.nextPage [(key, value)] .none) ∧
          g.record.pages.toInt = f.record.pages.toInt + 1) ∨
      ¬ 1 ≤ f.record.pages.toInt ∧
        ∃ failure g, (insertValue key value).runOn f = (.error failure, g) ∧ g.root = f.root := by
  rw [insertValue, Action.runOn_bind, Action.runOn_get]
  simp only [if_neg hroot]
  rw [Action.runOn_bind]
  rcases allocate_cases f with ⟨failure, g, hrun, hrefused⟩ | ⟨g, hrun, hallocated⟩
  · rw [hrun]
    exact Or.inl ⟨failure, g, rfl, hrefused⟩
  rw [hrun]
  simp only
  rw [Action.runOn_bind]
  by_cases hid : g.record.isAllocated f.nextPage
  · have hlone := carries_lone hid key value
    have hfits := hlone.held.fits _ (self_mem_subtrees _)
    have hpage : g.record.isAllocated (leaf f.nextPage [(key, value)] .none).node.id := hid
    have hleaf : (⟨f.nextPage, [key], .leaf [value] .none⟩ : Node)
        = (leaf f.nextPage [(key, value)] .none).node := rfl
    rw [hleaf, runOn_writePage_of_fits hpage hfits]
    simp only
    rw [runOn_setRoot, record_withNode, if_pos (Or.inr hid)]
    exact Or.inr (Or.inl ⟨_, rfl, hlone, hallocated.toInt_pages⟩)
  · -- page 0 was not counted before
    rw [runOn_writePage, if_neg hid]
    exact Or.inr (Or.inr ⟨fun hone => hid (hallocated.isAllocated_nextPage hone), _, g, rfl,
      hallocated.root⟩)

/-- An insertion into a file without a root. -/
theorem insertValue_of_not_isValid {f : PageFile} (hroot : ¬ f.root.isValid) (key : Int32)
    (value : RowId) : Inserted key value f [] ((insertValue key value).runOn f) := by
  rcases insertValue_unrooted_cases hroot key value with
    ⟨failure, g, hrun, hrefused⟩ | ⟨g, hrun, hcarries, -⟩ | ⟨hpages, failure, g, hrun, hsame⟩
  · rw [hrun]
    exact .refused (fun _ => hrefused.noRoom) (.nothing (by rwa [root, hrefused.record]))
  · rw [hrun]
    exact .done (List.nil_append []).symm (by simp) (by simp) (.tree hcarries)
  · rw [hrun]
    exact .refused (fun hone => absurd hone hpages) (.nothing (by rwa [hsame]))

/-- **How far an insertion comes** in a file that carries a tree. -/
inductive Attempted (key : Int32) (value : RowId) (f : PageFile) (t : Tree) :
    Except Failure Unit × PageFile → Prop
  /-- There was no room for a new root. -/
  | refused {failure : Failure} {g : PageFile} :
      Refused f failure g → Attempted key value f t (.error failure, g)
  /-- There was room for a new root, but not for the second half of the old one. -/
  | halfway {failure : Failure} {g k : PageFile} :
      allocate.runOn f = (.ok f.nextPage, g) → Allocated f g → Refused g failure k →
        Attempted key value f t (.error failure, k)
  /-- The insertion went on below a root with room: the old one, or a new one above its halves. -/
  | below {k : PageFile} {height fuel : Nat} {t' : Tree} {outcome : Except Failure Unit × PageFile} :
      k.Carries height t' → Raised t t' → Gained f k t t' →
      InsertedBelow key value k t' outcome → t'.keys.length < Layout.maxKeys → height ≤ fuel →
      outcome = (insertBelow key value fuel t'.node).runOn k → Attempted key value f t outcome

/-- A root that was split below a new one has gained the new root and its second half. -/
theorem gained_of_splitRoot {f g k : PageFile} {key : Int32} {t l r : Tree}
    (hheld : f.Holds t) (hallocated : Allocated f g)
    (hgrown : Grown g k (branch f.nextPage [] [t]) (branch f.nextPage [key] [l, r])) :
    Gained f (k.withRoot f.nextPage) t (branch f.nextPage [key] [l, r]) := by
  obtain ⟨new, hperm, hnew, hfresh, hcount⟩ := hgrown.pages
  have hpages : (branch f.nextPage [] [t]).pages = f.nextPage :: t.pages := by simp
  have hone : 1 ≤ f.record.pages.toInt :=
    Metadata.one_le_pages_of_isAllocated (isAllocated_of_readPage hheld.readPage)
  have hid := hallocated.isAllocated_nextPage hone
  refine ⟨hgrown.held.congr fun p _ => readPage_withRoot k _ p, ⟨new ++ [f.nextPage], ?_, ?_, ?_, ?_⟩,
    fun p hp hpt => ?_⟩
  · rw [List.append_assoc, List.singleton_append, ← hpages]
    exact hperm
  · refine List.nodup_append'.2 ⟨hnew, List.nodup_singleton _, fun p hp hpid => ?_⟩
    rw [List.mem_singleton.1 hpid] at hp
    exact hfresh _ hp hid
  · intro p hp
    rcases List.mem_append.1 hp with hp | hp
    · exact fun ha => hfresh p hp (hallocated.isAllocated ha)
    · rw [List.mem_singleton.1 hp]
      exact not_isAllocated_nextPage f
  · rw [record_withRoot, hcount, hallocated.toInt_pages, List.length_append, List.length_singleton]
    omega
  · -- what lies outside the old tree is not the new root either
    have hne : p ≠ f.nextPage := by
      rintro rfl
      exact not_isAllocated_nextPage f hp
    rw [readPage_withRoot, hgrown.frame p (hallocated.isAllocated hp), hallocated.read p hp]
    rw [hpages, List.mem_cons, not_or]
    exact ⟨hne, hpt⟩

/-- **All that an insertion can do** in a file that carries a tree. -/
theorem Carries.attempt {f : PageFile} {height : Nat} {t : Tree} (h : f.Carries height t)
    (key : Int32) (value : RowId) : Attempted key value f t ((insertValue key value).runOn f) := by
  have hread := h.held.readPage
  rw [h.page] at hread
  have hheight := h.height_lt
  have hbound := lt_insertionBound f.pageCount
  rw [insertValue, Action.runOn_bind, Action.runOn_get]
  simp only [if_pos (Metadata.isValid_of_isAllocated h.isAllocated_root)]
  rw [Action.runOn_bind, Action.runOn_ask, hread]
  simp only
  by_cases hfull : t.node.isFull
  · simp only [if_pos hfull]
    rw [Action.runOn_bind]
    rcases allocate_cases f with ⟨failure, g, hrun, hrefused⟩ | ⟨g, hrun, hallocated⟩
    · rw [hrun]
      exact .refused hrefused
    have hallocate := hrun
    rw [hrun]
    simp only
    rw [Action.runOn_bind]
    have hcarried := h.allocated hallocated
    have hid : g.record.isAllocated f.nextPage :=
      hallocated.isAllocated_nextPage (Metadata.one_le_pages_of_isAllocated h.isAllocated_root)
    have hfresh : f.nextPage ∉ t.pages :=
      fun hmem => not_isAllocated_nextPage f (h.held.isAllocated hmem)
    rw [← h.page]
    rcases splitRoot_cases hcarried.held hid hfresh h.nodup_pages hfull with
      ⟨failure, k, hrun, hrefused⟩ | ⟨k, separator, l, r, hhalves, hrun, hgrown⟩
    · rw [hrun]
      exact .halfway hallocate hallocated hrefused
    rw [hrun]
    simp only
    have hk := hcarried.withRoot_of_halves hhalves hgrown.held
    have hkroom : (branch f.nextPage [separator] [l, r]).keys.length < Layout.maxKeys := by
      rw [keys_branch, List.length_singleton]
      decide
    rw [Action.runOn_bind, runOn_setRoot, if_pos (Or.inr (hgrown.isAllocated hid))]
    simp only
    have hfuel : height + 1 ≤ insertionBound f.pageCount := by omega
    exact .below hk (.above hhalves) (gained_of_splitRoot h.held hallocated hgrown)
      (insertBelow_cases key value hk.held hk.nodup_pages hk.ordered hkroom hfuel) hkroom hfuel rfl
  · simp only [if_neg hfull]
    have hroom : t.keys.length < Layout.maxKeys := by simpa [Node.isFull] using hfull
    have hfuel : height ≤ insertionBound f.pageCount := by omega
    exact .below h .same (.refl h.held)
      (insertBelow_cases key value h.held h.nodup_pages h.ordered hroom hfuel) hroom hfuel rfl

/-- **What an insertion comes to** in a file that carries a tree. -/
theorem Carries.insertValue_cases {f : PageFile} {height : Nat} {t : Tree}
    (h : f.Carries height t) (key : Int32) (value : RowId) :
    Inserted key value f t.entries ((insertValue key value).runOn f) := by
  have hattempt := h.attempt key value
  generalize (insertValue key value).runOn f = outcome at hattempt ⊢
  cases hattempt with
  | refused hrefused =>
    exact .refused (fun _ => hrefused.noRoom) (.tree (h.congr hrefused.record hrefused.read))
  | halfway _ hallocated hrefused =>
    exact .refused (fun _ => hrefused.noRoom)
      (.tree ((h.allocated hallocated).congr hrefused.record hrefused.read))
  | below hk hraised _ hbelow =>
    have hdone := hk.inserted hbelow
    rw [hraised.entries] at hdone
    exact hdone.mono fun _ => Metadata.one_le_pages_of_isAllocated hk.isAllocated_root

/-- **All that an insertion can do** in a file that an audit accepts. -/
theorem Lists.insertValue {f : PageFile} {L : List (Int32 × RowId)} (h : f.Lists L) (key : Int32)
    (value : RowId) : Inserted key value f L ((PageFile.insertValue key value).runOn f) := by
  cases h with
  | nothing hroot => exact insertValue_of_not_isValid hroot key value
  | tree hcarries => exact hcarries.insertValue_cases key value

end PageFile

end RowIndex
