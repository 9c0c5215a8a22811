import RowIndex.Tree.Basic
import RowIndex.Proofs.PageReads

/-! # Trees and the pages that hold them

* **`Tree.page`**, `Tree.keys`, `Tree.node` — the node at the top of a tree, as its page stores it.
* **`Tree.subtrees`**, `Tree.pages` — all nodes of a tree, each with the tree below it, and their
  pages.
* **`PageFile.Holds`** — every node of a tree is what the file has on the node's page.
* **`Holds.eq_of_page_eq`** — a page carries one tree only.
* **`holds_of_treeAt`**, `Holds.treeAt` — a tree that is read is held, and the other way round. -/

namespace RowIndex

namespace Tree

/-- **Induction over a tree**: at a branch the claim is known of every subtree. -/
@[elab_as_elim, induction_eliminator]
theorem inductionOn {motive : Tree → Prop}
    (leaf : ∀ id entries next, motive (.leaf id entries next))
    (branch : ∀ id keys children, (∀ c ∈ children, motive c) → motive (.branch id keys children))
    (t : Tree) : motive t :=
  @Tree.rec motive (fun ts => ∀ t ∈ ts, motive t) leaf branch
    (fun _ h => absurd h List.not_mem_nil)
    (fun _ _ ht hts c hc => (List.mem_cons.1 hc).elim (fun h => h ▸ ht) (hts c)) t

/-! ## (1) The node at the top -/

/-- The page of the node at the top. -/
def page : Tree → PageId
  | .leaf id _ _ => id
  | .branch id _ _ => id

/-- The keys of the node at the top. -/
def keys : Tree → List Int32
  | .leaf _ entries _ => entries.map (·.1)
  | .branch _ keys _ => keys

/-- **The node at the top**, as its page stores it. -/
def node : Tree → Node
  | .leaf id entries next => ⟨id, entries.map (·.1), .leaf (entries.map (·.2)) next⟩
  | .branch id keys children => ⟨id, keys, .internal (children.map page)⟩

/-- The node of a leaf. -/
def Leaf.node (l : Leaf) : Node :=
  (Tree.leaf l.id l.entries l.next).node

@[simp] theorem page_leaf (id : PageId) (es : List (Int32 × RowId)) (next : PageId) :
    page (.leaf id es next) = id := rfl

@[simp] theorem page_branch (id : PageId) (keys : List Int32) (children : List Tree) :
    page (.branch id keys children) = id := rfl

@[simp] theorem keys_leaf (id : PageId) (es : List (Int32 × RowId)) (next : PageId) :
    keys (.leaf id es next) = es.map (·.1) := rfl

@[simp] theorem keys_branch (id : PageId) (ks : List Int32) (children : List Tree) :
    keys (.branch id ks children) = ks := rfl

@[simp] theorem id_node (t : Tree) : t.node.id = t.page := by
  cases t <;> rfl

@[simp] theorem keys_node (t : Tree) : t.node.keys = t.keys := by
  cases t <;> rfl

/-- A node is read as the tree of one leaf only if it is that leaf's node. -/
theorem node_leaf_entries {n : Node} {values : List RowId} {next : PageId}
    (hbody : n.body = .leaf values next) (hfit : n.defect? = none) :
    (Tree.leaf n.id n.entries next).node = n := by
  obtain ⟨id, keys, body⟩ := n
  subst hbody
  have hlen := ((Node.defect?_eq_none_iff _).1 hfit).2
  simp only at hlen
  simp only [node, Node.entries, Node.values, List.map_fst_zip (Nat.le_of_eq hlen.symm),
    List.map_snd_zip (Nat.le_of_eq hlen)]

/-- The entries of a leaf are read back from its node. -/
@[simp] theorem entries_node_leaf (id : PageId) (es : List (Int32 × RowId)) (next : PageId) :
    (Tree.leaf id es next).node.entries = es := by
  simp only [node, Node.entries, Node.values]
  induction es with
  | nil => rfl
  | cons e es ih => rw [List.map_cons, List.map_cons, List.zip_cons_cons, ih]

/-! ## (2) All nodes -/

mutual

/-- **All subtrees**, each before those below it, from left to right. -/
def subtrees : Tree → List Tree
  | .leaf id entries next => [.leaf id entries next]
  | .branch id keys children => .branch id keys children :: subtreesOf children

/-- All subtrees of a row of trees. -/
def subtreesOf : List Tree → List Tree
  | [] => []
  | t :: ts => subtrees t ++ subtreesOf ts

end

@[simp] theorem subtrees_leaf (id : PageId) (es : List (Int32 × RowId)) (next : PageId) :
    subtrees (.leaf id es next) = [.leaf id es next] := by
  simp [subtrees]

@[simp] theorem subtrees_branch (id : PageId) (keys : List Int32) (children : List Tree) :
    subtrees (.branch id keys children)
      = .branch id keys children :: children.flatMap subtrees := by
  have row : ∀ ts, subtreesOf ts = ts.flatMap subtrees := by
    intro ts
    induction ts with
    | nil => simp [subtreesOf]
    | cons t ts ih => simp [subtreesOf, ih]
  simp [subtrees, row]

/-- The pages of all nodes. -/
def pages (t : Tree) : List PageId :=
  t.subtrees.map page

@[simp] theorem pages_leaf (id : PageId) (es : List (Int32 × RowId)) (next : PageId) :
    pages (.leaf id es next) = [id] := by
  simp [pages]

@[simp] theorem pages_branch (id : PageId) (keys : List Int32) (children : List Tree) :
    pages (.branch id keys children) = id :: children.flatMap pages := by
  simp only [pages, subtrees_branch, List.map_cons, page_branch, List.map_flatMap]
  rfl

theorem self_mem_subtrees (t : Tree) : t ∈ t.subtrees := by
  cases t <;> simp

theorem page_mem_pages (t : Tree) : t.page ∈ t.pages :=
  List.mem_map.2 ⟨t, self_mem_subtrees t, rfl⟩

/-- The tree itself comes first. -/
theorem subtrees_eq_cons (t : Tree) : t.subtrees = t :: t.subtrees.tail := by
  cases t <;> simp

/-- Where no page is used twice, the nodes below the top lie on other pages. -/
theorem page_ne_of_mem_tail {s t : Tree} (h : t.pages.Nodup) (hs : s ∈ t.subtrees.tail) :
    s.page ≠ t.page := by
  rw [pages, subtrees_eq_cons, List.map_cons, List.nodup_cons] at h
  intro hpage
  exact h.1 (List.mem_map.2 ⟨s, hs, hpage⟩)

/-- A subtree's subtrees are subtrees. -/
theorem mem_subtrees_trans {s t u : Tree} (hs : s ∈ t.subtrees) (ht : t ∈ u.subtrees) :
    s ∈ u.subtrees := by
  induction u with
  | leaf id es next =>
    rw [subtrees_leaf, List.mem_singleton] at ht
    rwa [ht] at hs
  | branch id keys children ih =>
    rw [subtrees_branch, List.mem_cons] at ht
    rcases ht with rfl | ht
    · exact hs
    · obtain ⟨c, hc, htc⟩ := List.mem_flatMap.1 ht
      rw [subtrees_branch]
      exact List.mem_cons_of_mem _ (List.mem_flatMap.2 ⟨c, hc, ih c hc htc⟩)

/-- A subtree below the top has fewer subtrees. -/
theorem length_subtrees_lt {c : Tree} {children : List Tree} (h : c ∈ children) (id : PageId)
    (keys : List Int32) :
    c.subtrees.length < (Tree.branch id keys children).subtrees.length := by
  obtain ⟨before, after, rfl⟩ := List.append_of_mem h
  rw [subtrees_branch, List.length_cons, List.flatMap_append, List.flatMap_cons,
    List.length_append, List.length_append]
  omega

/-- A subtree has no more subtrees than the tree. -/
theorem length_subtrees_le {s t : Tree} (h : s ∈ t.subtrees) :
    s.subtrees.length ≤ t.subtrees.length := by
  induction t with
  | leaf id es next =>
    rw [subtrees_leaf, List.mem_singleton] at h
    exact Nat.le_of_eq (congrArg (fun t => t.subtrees.length) h)
  | branch id keys children ih =>
    rw [subtrees_branch, List.mem_cons] at h
    rcases h with rfl | h
    · exact Nat.le_refl _
    · obtain ⟨c, hc, hsc⟩ := List.mem_flatMap.1 h
      exact Nat.le_trans (ih c hc hsc) (Nat.le_of_lt (length_subtrees_lt hc id keys))

/-- **Whether every node of a tree fits in a page.** -/
def Fits (t : Tree) : Prop :=
  ∀ s ∈ t.subtrees, s.node.defect? = none

namespace Fits

variable {id : PageId} {keys : List Int32} {children : List Tree}

theorem of_mem_subtrees {s t : Tree} (h : t.Fits) (hs : s ∈ t.subtrees) : s.Fits :=
  fun u hu => h u (mem_subtrees_trans hu hs)

theorem of_mem_children (h : (branch id keys children).Fits) {c : Tree} (hc : c ∈ children) :
    c.Fits := by
  apply h.of_mem_subtrees
  rw [subtrees_branch]
  exact List.mem_cons_of_mem _ (List.mem_flatMap.2 ⟨c, hc, self_mem_subtrees c⟩)

/-- A branch that fits has one child more than keys. -/
theorem length_children (h : (branch id keys children).Fits) :
    children.length = keys.length + 1 := by
  have hfit := ((Node.defect?_eq_none_iff _).1 (h _ (self_mem_subtrees _))).2
  simpa [node] using hfit

end Fits

end Tree

/-! ## (3) Trees in a file -/

namespace PageFile

open RowIndex.Tree

/-- **The file holds a tree**: every node of the tree is what the file has on the node's page. -/
def Holds (f : PageFile) (t : Tree) : Prop :=
  ∀ s ∈ t.subtrees, f.readPage s.page = .ok s.node

theorem holds_leaf_iff {f : PageFile} {id : PageId} {es : List (Int32 × RowId)} {next : PageId} :
    f.Holds (.leaf id es next) ↔ f.readPage id = .ok (Tree.leaf id es next).node := by
  simp [Holds]

theorem holds_branch_iff {f : PageFile} {id : PageId} {keys : List Int32} {children : List Tree} :
    f.Holds (.branch id keys children) ↔
      f.readPage id = .ok (Tree.branch id keys children).node ∧ ∀ c ∈ children, f.Holds c := by
  simp only [Holds, subtrees_branch, List.forall_mem_cons, page_branch, List.mem_flatMap]
  constructor
  · rintro ⟨htop, hbelow⟩
    exact ⟨htop, fun c hc s hs => hbelow s ⟨c, hc, hs⟩⟩
  · rintro ⟨htop, hbelow⟩
    exact ⟨htop, fun s ⟨c, hc, hs⟩ => hbelow c hc s hs⟩

namespace Holds

variable {f g : PageFile} {s t : Tree}

theorem readPage (h : f.Holds t) : f.readPage t.page = .ok t.node :=
  h t (self_mem_subtrees t)

theorem of_mem_subtrees (h : f.Holds t) (hs : s ∈ t.subtrees) : f.Holds s :=
  fun u hu => h u (mem_subtrees_trans hu hs)

/-- The nodes of a tree that a file holds fit in their pages. -/
theorem fits (h : f.Holds t) : t.Fits :=
  fun s hs => defect?_of_readPage (h s hs)

theorem isAllocated (h : f.Holds t) {p : PageId} (hp : p ∈ t.pages) : f.record.isAllocated p := by
  obtain ⟨s, hs, rfl⟩ := List.mem_map.1 hp
  exact isAllocated_of_readPage (h s hs)

/-- **Another file holds the tree too** if its pages read the same there. -/
theorem congr (h : f.Holds t) (hread : ∀ p ∈ t.pages, g.readPage p = f.readPage p) : g.Holds t :=
  fun s hs => (hread s.page (List.mem_map.2 ⟨s, hs, rfl⟩)).trans (h s hs)

/-- **A page carries one tree only.** The nodes on the page are the same, so the trees have the same
children, each of which carries one tree only. -/
theorem eq_of_page_eq (hs : f.Holds s) (ht : f.Holds t) (h : s.page = t.page) : s = t := by
  have hnode : s.node = t.node := by
    have hread := hs.readPage
    rw [h, ht.readPage] at hread
    exact (Except.ok.inj hread).symm
  induction s generalizing t with
  | leaf id es next =>
    cases t with
    | leaf id' es' next' =>
      have hentries := congrArg Node.entries hnode
      -- the entries are not in the node as such, but its keys and slots tell them
      rw [entries_node_leaf, entries_node_leaf] at hentries
      have hnext : next = next' := congrArg Node.next hnode
      rw [hentries, hnext, show id = id' from h]
    | branch => cases congrArg Node.isLeaf hnode
  | branch id keys children ih =>
    cases t with
    | leaf => cases congrArg Node.isLeaf hnode
    | branch id' keys' children' =>
      have hkeys : keys = keys' := congrArg Node.keys hnode
      have hpages : children.map page = children'.map page := congrArg Node.children hnode
      have hchildren : children = children' := by
        -- child by child, as the two nodes name the same pages
        have hlen : children.length = children'.length := by
          simpa using congrArg List.length hpages
        apply List.ext_getElem hlen
        intro i hi hi'
        have hs' := (holds_branch_iff.1 hs).2 _ (List.getElem_mem hi)
        have ht' := (holds_branch_iff.1 ht).2 _ (List.getElem_mem hi')
        have hpage : children[i].page = children'[i].page := by
          have := List.getElem_of_eq hpages (by simpa using hi)
          simpa using this
        refine ih _ (List.getElem_mem hi) hs' ht' hpage ?_
        have hread := hs'.readPage
        rw [hpage, ht'.readPage] at hread
        exact (Except.ok.inj hread).symm
      rw [hkeys, hchildren, show id = id' from h]

/-- **No tree hangs below itself.** -/
theorem not_mem_pages_of_mem_children {id : PageId} {keys : List Int32} {children : List Tree}
    (h : f.Holds (.branch id keys children)) {c : Tree} (hc : c ∈ children) : id ∉ c.pages := by
  intro hid
  obtain ⟨s, hs, hpage⟩ := List.mem_map.1 hid
  have hcs := (holds_branch_iff.1 h).2 c hc
  -- the node on page `id` is at the top of both trees, so the smaller one is the whole tree
  have heq := (hcs.of_mem_subtrees hs).eq_of_page_eq h hpage
  have hle := length_subtrees_le hs
  have hlt := length_subtrees_lt hc id keys
  rw [heq] at hle
  omega

end Holds

/-! ## (4) Reading a tree -/

/-- Reading a tree, node by node. -/
theorem treeAt_succ (f : PageFile) (fuel : Nat) (id : PageId) :
    f.treeAt (fuel + 1) id =
      match f.readPage id with
      | .error e => .error e
      | .ok node =>
        match node.body with
        | .leaf _ next => .ok (.leaf id node.entries next)
        | .internal children =>
          match children.mapM (f.treeAt fuel) with
          | .error e => .error e
          | .ok ts => .ok (.branch id node.keys ts) := by
  rw [treeAt]
  cases f.readPage id with
  | error e => rfl
  | ok node =>
    obtain ⟨nid, keys, body⟩ := node
    cases body with
    | leaf values next => rfl
    | internal children =>
      simp only [bind, Except.bind]
      cases children.mapM (f.treeAt fuel) <;> rfl

theorem mapM_cons_eq_ok_iff {read : PageId → Except Failure Tree} {p : PageId} {ps : List PageId}
    {ts : List Tree} :
    (p :: ps).mapM read = .ok ts ↔
      ∃ u us, read p = .ok u ∧ ps.mapM read = .ok us ∧ ts = u :: us := by
  rw [List.mapM_cons]
  cases read p with
  | error e => simp [bind, Except.bind]
  | ok u =>
    cases ps.mapM read with
    | error e => simp [bind, Except.bind]
    | ok us => simp [bind, Except.bind, pure, Except.pure, eq_comm]

/-- **A row of children is read as a row of trees** when each child is read as its tree. -/
theorem mapM_eq_ok_iff {read : PageId → Except Failure Tree}
    (hpage : ∀ p t, read p = .ok t → t.page = p) (ps : List PageId) (ts : List Tree) :
    ps.mapM read = .ok ts ↔ ps = ts.map page ∧ ∀ t ∈ ts, read t.page = .ok t := by
  induction ps generalizing ts with
  | nil => cases ts <;> simp [pure, Except.pure]
  | cons p ps ih =>
    rw [mapM_cons_eq_ok_iff]
    constructor
    · rintro ⟨u, us, hu, hus, rfl⟩
      obtain ⟨hps, hall⟩ := (ih us).1 hus
      have hp := hpage p u hu
      rw [List.map_cons, List.forall_mem_cons, hp, ← hps]
      exact ⟨rfl, hu, hall⟩
    · rintro ⟨heq, hall⟩
      cases ts with
      | nil => cases heq
      | cons u us =>
        obtain ⟨rfl, hps⟩ := List.cons.inj heq
        obtain ⟨hu, hus⟩ := List.forall_mem_cons.1 hall
        exact ⟨u, us, hu, (ih us).2 ⟨hps, hus⟩, rfl⟩

/-- **Reading a tree gives one that the file holds.** -/
theorem holds_of_treeAt {f : PageFile} {fuel : Nat} {id : PageId} {t : Tree}
    (h : f.treeAt fuel id = .ok t) : t.page = id ∧ f.Holds t := by
  induction fuel generalizing id t with
  | zero => cases h
  | succ fuel ih =>
    rw [treeAt_succ] at h
    split at h
    · cases h
    · rename_i node hread
      have hid := id_of_readPage hread
      split at h
      · rename_i values next hbody
        cases h
        refine ⟨rfl, holds_leaf_iff.2 ?_⟩
        rw [← hid, node_leaf_entries hbody (defect?_of_readPage hread), hid, hread]
      · rename_i children hbody
        split at h
        · cases h
        · rename_i ts hts
          cases h
          -- each child is read as the tree on its page, so the node names the trees' pages
          obtain ⟨hpages, htrees⟩ :=
            (mapM_eq_ok_iff (fun p t hp => (ih hp).1) children ts).1 hts
          refine ⟨rfl, holds_branch_iff.2 ⟨?_, fun c hc => (ih (htrees c hc)).2⟩⟩
          rw [hread, Tree.node, ← hpages, ← hbody, ← hid]

/-- **A tree that a file holds is read**, if not too many levels are asked for. -/
theorem Holds.treeAt {f : PageFile} {t : Tree} (h : f.Holds t) {fuel : Nat}
    (hfuel : t.subtrees.length ≤ fuel) : f.treeAt fuel t.page = .ok t := by
  induction t generalizing fuel with
  | leaf id es next =>
    obtain ⟨fuel, rfl⟩ : ∃ n, fuel = n + 1 := ⟨fuel - 1, by simp at hfuel; omega⟩
    rw [treeAt_succ, h.readPage]
    simp only [entries_node_leaf, page_leaf]
    rfl
  | branch id keys children ih =>
    obtain ⟨fuel, rfl⟩ : ∃ n, fuel = n + 1 := ⟨fuel - 1, by simp at hfuel; omega⟩
    have hchildren : (children.map page).mapM (f.treeAt fuel) = .ok children := by
      rw [mapM_eq_ok_iff fun p t hp => (holds_of_treeAt hp).1]
      refine ⟨rfl, fun c hc => ih c hc ((holds_branch_iff.1 h).2 c hc) ?_⟩
      have := length_subtrees_lt hc id keys
      omega
    rw [treeAt_succ, h.readPage]
    simp only [node, hchildren, page_branch]

end PageFile

end RowIndex
