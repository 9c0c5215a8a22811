import RowIndex.Proofs.Audits
import RowIndex.Proofs.Insertions

/-! # Children that are no pages

An insertion that meets a child which is not allocated fails there, unless it has allocated that very
page itself: the bounds of a read are those of the moment, and every full node on the way down moves
them.

* **`Node.childFor`** — the child that an insertion takes; `Halves.childFor` says that the half of a
  node that a key belongs to takes the same child.
* **`PageFile.Passes`** — the nodes that an insertion passes before it meets a page.
* **`splitPages`** — how many pages the full ones among these nodes cost.
* **`splitChild_onWay_cases`** — a split on the way keeps what lies ahead; `insertBelow_onWay_cases` and
  `splitRoot_onWay_cases` say so of the insertion.
* **`insert_fails_at_dangling_child`** — an insertion fails where it meets a page that is not
  allocated, before the call or by its splits. -/

namespace RowIndex

/-! ## (1) The child that a key belongs to -/

namespace Route

/-- Behind a separator that is not above the key, the key belongs as far as it does there. -/
theorem insertion_append_of_le {front : List Int32} (back : List Int32) {separator key : Int32}
    (hfront : ∀ k ∈ front, k ≤ key) (hseparator : separator ≤ key) :
    insertion key (front ++ separator :: back) = front.length + 1 + insertion key back := by
  have htake : (front ++ separator :: back).takeWhile (· ≤ key)
      = front ++ separator :: back.takeWhile (· ≤ key) := by
    rw [List.takeWhile_append_of_pos fun k hk => decide_eq_true (hfront k hk),
      List.takeWhile_cons_of_pos (by simpa using hseparator)]
  simp only [insertion, frontCount, htake, List.length_append, List.length_cons]
  omega

/-- A key below a separator belongs before it. -/
theorem insertion_append_of_lt (front back : List Int32) {separator key : Int32}
    (hseparator : ¬ separator ≤ key) :
    insertion key (front ++ separator :: back) = insertion key front := by
  have hstop : (separator :: back).takeWhile (· ≤ key) = [] :=
    List.takeWhile_cons_of_neg (by simpa using hseparator)
  simp only [insertion, frontCount, List.takeWhile_append, hstop, List.append_nil]
  split
  · rename_i hall
    exact hall.symm
  · rfl

/-- Where a key belongs in a row of one separator. -/
theorem insertion_singleton (key separator : Int32) :
    insertion key [separator] = if separator ≤ key then 1 else 0 := by
  by_cases hside : separator ≤ key
  · simp [insertion, frontCount, hside]
  · simp [insertion, frontCount, hside]

end Route

/-- **The child that an insertion takes** from an internal node; none for a leaf. -/
def Node.childFor (key : Int32) (n : Node) : Option PageId :=
  n.children[Route.insertion key n.keys]?

/-- A node that has a child is no leaf. -/
theorem Node.not_isLeaf_of_childFor {key : Int32} {n : Node} {p : PageId}
    (h : n.childFor key = some p) : ¬ n.isLeaf := by
  obtain ⟨id, keys, body⟩ := n
  cases body with
  | leaf => cases h
  | internal => simp [isLeaf]

/-- **The node above the halves of a root that was split.** -/
def Node.overHalves (id first : PageId) (separator : Int32) (second : PageId) : Node :=
  (Node.overChild id first).withChild 0 separator second

namespace Node

theorem overHalves_eq (id first : PageId) (separator : Int32) (second : PageId) :
    overHalves id first separator second = ⟨id, [separator], .internal [first, second]⟩ := rfl

theorem defect?_overHalves (id first : PageId) (separator : Int32) (second : PageId) :
    (overHalves id first separator second).defect? = none := by
  rw [overHalves_eq, defect?_eq_none_iff]
  exact ⟨by simp [Layout.maxKeys], rfl⟩

theorem not_isFull_overHalves (id first : PageId) (separator : Int32) (second : PageId) :
    ¬ (overHalves id first separator second).isFull := by
  simp [overHalves_eq, isFull, Layout.maxKeys]

/-- A key belongs to the second half behind the separator. -/
theorem childFor_overHalves (key : Int32) (id first : PageId) (separator : Int32)
    (second : PageId) :
    (overHalves id first separator second).childFor key
      = (overHalves id first separator second).children[if separator ≤ key then 1 else 0]? := by
  rw [childFor, overHalves_eq, Route.insertion_singleton]

end Node

namespace Tree

/-- **Every node that fits in a page** is at the top of some tree. -/
theorem exists_node_eq {n : Node} (hfit : n.defect? = none) : ∃ t : Tree, t.node = n := by
  obtain ⟨id, keys, body⟩ := n
  cases body with
  | leaf values next => exact ⟨_, node_leaf_entries rfl hfit⟩
  | internal children =>
    refine ⟨branch id keys (children.map fun p => leaf p [] .none), ?_⟩
    rw [node, List.map_map]
    exact congrArg (fun ps => Node.mk id keys (.internal ps)) (List.map_id children)

namespace Halves

variable {sibling : PageId} {c l r : Tree} {separator : Int32} (h : Halves sibling c l separator r)

include h

/-- The keys of both halves are in order when those of the node are. -/
theorem sorted (hsorted : c.keys.Pairwise (· ≤ ·)) :
    l.keys.Pairwise (· ≤ ·) ∧ r.keys.Pairwise (· ≤ ·) := by
  cases h with
  | leaf =>
    rw [keys_leaf, List.map_append] at hsorted
    exact ⟨(List.pairwise_append.1 hsorted).1, (List.pairwise_append.1 hsorted).2.1⟩
  | branch =>
    obtain ⟨hfront, hback, -⟩ := List.pairwise_append.1 hsorted
    exact ⟨hfront, (List.pairwise_cons.1 hback).2⟩

/-- **The half that a key belongs to takes the child that the node took.** -/
theorem childFor (hsorted : c.keys.Pairwise (· ≤ ·)) (key : Int32) :
    (if separator ≤ key then r.node else l.node).childFor key = c.node.childFor key := by
  cases h with
  | leaf => split <;> rfl
  | @branch id _ front back ts us _ _ hlen =>
    obtain ⟨-, -, hbefore⟩ := List.pairwise_append.1 hsorted
    by_cases hside : separator ≤ key
    · -- all keys of the first half and the separator lie before the place
      have hfront : ∀ k ∈ front, k ≤ key := fun k hk =>
        Int32.le_trans (hbefore k hk separator List.mem_cons_self) hside
      have hroute := Route.insertion_append_of_le back hfront hside
      rw [if_pos hside]
      simp only [Node.childFor, node, Node.children, hroute, List.map_append]
      rw [List.getElem?_append_right (by rw [List.length_map]; omega), List.length_map, hlen,
        Nat.add_sub_cancel_left]
    · have hroute := Route.insertion_append_of_lt front back hside
      have hplace : Route.insertion key front < (ts.map page).length := by
        have hle := frontCount_le (· ≤ key) front
        rw [Route.insertion, List.length_map, hlen]
        omega
      rw [if_neg hside]
      simp only [Node.childFor, node, Node.children, hroute, List.map_append]
      rw [List.getElem?_append_left hplace]

end Halves

end Tree

namespace PageFile

open RowIndex.Tree Relation

/-! ## (2) The nodes on the way -/

/-- **The nodes that an insertion passes** from a node on until it meets a page: each is read from its
page, and the child that the key belongs to is the next of them. -/
inductive Passes (f : PageFile) (key : Int32) : Node → List Node → PageId → Prop
  /-- The child is the page. -/
  | here {n : Node} {p : PageId} :
      f.readPage n.id = .ok n → n.childFor key = some p → Passes f key n [] p
  /-- The child is a further node. -/
  | through {n m : Node} {ms : List Node} {p : PageId} :
      f.readPage n.id = .ok n → n.childFor key = some m.id → Passes f key m ms p →
        Passes f key n (m :: ms) p

namespace Passes

variable {f g : PageFile} {key : Int32} {n : Node} {ms : List Node} {p : PageId}

/-- The first node is on its page. -/
theorem read (h : f.Passes key n ms p) : f.readPage n.id = .ok n := by
  cases h with
  | here hread => exact hread
  | through hread => exact hread

/-- The nodes that are passed are allocated. -/
theorem isAllocated (h : f.Passes key n ms p) : ∀ m ∈ n :: ms, f.record.isAllocated m.id := by
  induction h with
  | here hread => exact List.forall_mem_singleton.2 (isAllocated_of_readPage hread)
  | through hread _ _ ih => exact List.forall_mem_cons.2 ⟨isAllocated_of_readPage hread, ih⟩

/-- **The same nodes are passed in another file** below a node that takes the same child, if their pages
read the same there. -/
theorem replace (h : f.Passes key n ms p) {half : Node} (hread : g.readPage half.id = .ok half)
    (hchild : half.childFor key = n.childFor key)
    (hkept : ∀ m ∈ ms, g.readPage m.id = f.readPage m.id) : g.Passes key half ms p := by
  induction h generalizing half with
  | here _ hp => exact .here hread (hchild.trans hp)
  | @through n m ms p _ hm hbelow ih =>
    obtain ⟨hmkept, hmskept⟩ := List.forall_mem_cons.1 hkept
    exact .through hread (hchild.trans hm) (ih (hmkept.trans hbelow.read) rfl hmskept)

/-- A node leads to all nodes that are passed after it. -/
theorem leads (h : f.Passes key n ms p) : ∀ m ∈ ms, TransGen f.IsChild n.id m.id := by
  induction h with
  | here => simp
  | @through n m ms p hread hm _ ih =>
    have hstep : f.IsChild n.id m.id := ⟨n, hread, List.mem_of_getElem? hm⟩
    exact List.forall_mem_cons.2 ⟨.single hstep, fun k hk => (ih k hk).head hstep⟩

/-- **Without a loop among the children no node is passed twice.** -/
theorem nodup (h : f.Passes key n ms p)
    (hloop : ∀ q, ReflTransGen f.IsChild n.id q → ¬ TransGen f.IsChild q q) :
    ((n :: ms).map Node.id).Nodup := by
  induction h with
  | here => exact List.nodup_singleton _
  | @through n m ms p hread hm hbelow ih =>
    have hpasses : f.Passes key n (m :: ms) p := .through hread hm hbelow
    have hstep : f.IsChild n.id m.id := ⟨n, hread, List.mem_of_getElem? hm⟩
    rw [List.map_cons, List.nodup_cons]
    refine ⟨fun hmem => ?_, ih fun q hq => hloop q (hq.head hstep)⟩
    obtain ⟨k, hk, hid⟩ := List.mem_map.1 hmem
    have hcycle := hpasses.leads k hk
    rw [hid] at hcycle
    exact hloop n.id .refl hcycle

end Passes

/-- **How many pages the full ones among the passed nodes cost** when the first is the root: one each for
their second halves, and one for a new root. -/
def splitPages (n : Node) (ms : List Node) : Nat :=
  (if n.isFull then 1 else 0) + (n :: ms).countP Node.isFull

theorem splitPages_of_isFull {n : Node} (h : n.isFull) (ms : List Node) :
    splitPages n ms = ms.countP Node.isFull + 2 := by
  rw [splitPages, if_pos h, List.countP_cons_of_pos h]
  omega

theorem splitPages_of_not_isFull {n : Node} (h : ¬ n.isFull) (ms : List Node) :
    splitPages n ms = ms.countP Node.isFull := by
  rw [splitPages, if_neg h, List.countP_cons_of_neg h, Nat.zero_add]

/-! ## (3) Splits on the way -/

/-- **The half of a split node that the key belongs to**: it has room, and takes the child that the node
took. -/
structure HalfFor (f g : PageFile) (key : Int32) (m half : Node) : Prop where
  /-- It is on its page. -/
  read : g.readPage half.id = .ok half
  /-- The page is the old one or the new one. -/
  page : half.id = m.id ∨ half.id = f.nextPage
  /-- It has room for another key. -/
  room : ¬ half.isFull
  /-- Its keys are in order. -/
  sorted : half.keys.Pairwise (· ≤ ·)
  /-- It takes the same child. -/
  childFor : half.childFor key = m.childFor key

/-- **The way goes on below the half** as it did below the node, if the nodes on it are kept. -/
theorem Passes.half {f g : PageFile} {key : Int32} {m half : Node} {ms : List Node} {p : PageId}
    (h : f.Passes key m ms p) (hnodup : ((m :: ms).map Node.id).Nodup)
    (hhalf : HalfFor f g key m half) (hkept : ∀ k ∈ ms, g.readPage k.id = f.readPage k.id) :
    g.Passes key half ms p ∧ ((half :: ms).map Node.id).Nodup := by
  obtain ⟨hid, hms⟩ := List.nodup_cons.1 hnodup
  refine ⟨h.replace hhalf.read hhalf.childFor hkept, List.nodup_cons.2 ⟨?_, hms⟩⟩
  rcases hhalf.page with hpage | hpage
  · rwa [hpage]
  · -- the new page was not allocated, and all nodes on the way were
    intro hmem
    obtain ⟨k, hk, hkid⟩ := List.mem_map.1 hmem
    have hallocated := h.isAllocated k (List.mem_cons_of_mem m hk)
    rw [hkid, hpage] at hallocated
    exact not_isAllocated_nextPage f hallocated

/-- A child is read at its place. -/
theorem read_childAt {children : List PageId} {i : Nat} {p : PageId} (h : children[i]? = some p)
    (f : PageFile) : (childAt children i >>= f.readPage) = f.readPage p := by
  rw [childAt, h]
  rfl

/-- A node with a sibling linked in behind a child keeps the child at its place. -/
theorem getElem?_withChild {n : Node} {i : Nat} {p : PageId} (h : n.children[i]? = some p)
    (separator : Int32) (sibling : PageId) :
    (n.withChild i separator sibling).children[i]? = some p ∧
      (n.withChild i separator sibling).children[i + 1]? = some sibling := by
  have hlen : i < n.children.length := (List.getElem?_eq_some_iff.1 h).1
  have hchildren : (n.withChild i separator sibling).children
      = n.children.insertIdx (i + 1) sibling := rfl
  rw [hchildren, List.getElem?_insertIdx_of_lt (Nat.lt_succ_self i), List.getElem?_insertIdx_self,
    if_pos (Nat.succ_le_of_lt hlen)]
  exact ⟨h, rfl⟩

/-- One of two halves that are on their pages is the one that a key belongs to. -/
theorem halfFor_of_halves {f g : PageFile} {c l r : Tree} {separator : Int32} (key : Int32)
    (hhalves : Halves f.nextPage c l separator r)
    (hrooms : l.keys.length < Layout.maxKeys ∧ r.keys.length < Layout.maxKeys)
    (hl : g.readPage l.page = .ok l.node) (hr : g.readPage r.page = .ok r.node)
    (hsorted : c.keys.Pairwise (· ≤ ·)) :
    HalfFor f g key c.node (if separator ≤ key then r.node else l.node) := by
  have hchildFor := hhalves.childFor hsorted key
  obtain ⟨hlsorted, hrsorted⟩ := hhalves.sorted hsorted
  by_cases hside : separator ≤ key
  · rw [if_pos hside] at hchildFor ⊢
    exact
      { read := by rwa [id_node]
        page := Or.inr (by rw [id_node, hhalves.page_right])
        room := by simpa [Node.isFull] using hrooms.2
        sorted := by rwa [keys_node]
        childFor := hchildFor }
  · rw [if_neg hside] at hchildFor ⊢
    exact
      { read := by rwa [id_node]
        page := Or.inl (by rw [id_node, id_node, hhalves.page_left])
        room := by simpa [Node.isFull] using hrooms.1
        sorted := by rwa [keys_node]
        childFor := hchildFor }

/-- **All that splitting a full child on the way can do**: there is no room, or the half that the key
belongs to is found at its place in the parent, and all pages but those of child and parent read as
before. -/
theorem splitChild_onWay_cases {f : PageFile} {n m : Node} {i : Nat} (key : Int32)
    (hn : f.record.isAllocated n.id)
    (hfit : ∀ separator, (n.withChild i separator f.nextPage).defect? = none)
    (hchild : n.children[i]? = some m.id) (hm : f.readPage m.id = .ok m) (hne : m.id ≠ n.id)
    (hfull : m.isFull) (hsorted : m.keys.Pairwise (· ≤ ·)) :
    (∃ failure g, (splitChild n i m).runOn f = (.error failure, g) ∧ Refused f failure g) ∨
    ∃ g separator half,
      (splitChild n i m).runOn f = (.ok (n.withChild i separator f.nextPage, separator), g) ∧
      HalfFor f g key m half ∧
      (n.withChild i separator f.nextPage).children[if separator ≤ key then i + 1 else i]?
        = some half.id ∧
      g.readPage n.id = .ok (n.withChild i separator f.nextPage) ∧
      g.record.pages.toInt = f.record.pages.toInt + 1 ∧
      ∀ q, f.record.isAllocated q → q ≠ n.id → q ≠ m.id → g.readPage q = f.readPage q := by
  -- the child is at the top of a tree, so its halves are known
  obtain ⟨c, rfl⟩ := exists_node_eq (defect?_of_readPage hm)
  rw [keys_node] at hsorted
  rw [id_node] at hm hne hchild
  rcases splitChild_pages_cases i hn hfit hm hne hfull with
    hrefused | ⟨g, separator, l, r, hhalves, hrooms, hrun, hparent, ⟨hl, hr⟩, hkept, -, hcount⟩
  · exact Or.inl hrefused
  refine Or.inr ⟨g, separator, _, hrun, halfFor_of_halves key hhalves hrooms hl hr hsorted, ?_,
    hparent, hcount, fun q hq hqn hqc => hkept q hq hqn (by rwa [id_node] at hqc)⟩
  obtain ⟨hat, hbehind⟩ := getElem?_withChild hchild separator f.nextPage
  by_cases hside : separator ≤ key
  · rw [if_pos hside, if_pos hside, hbehind, id_node, hhalves.page_right]
  · rw [if_neg hside, if_neg hside, hat, id_node, hhalves.page_left]

/-! ## (4) Where an insertion fails -/

/-- **How an insertion fails at a page**, when `count` pages are counted by then. -/
inductive FailsAt (p : PageId) (count : Int) : Except Failure Unit × PageFile → Prop
  /-- The page is out of range. -/
  | outOfRange {g : PageFile} : g.record.pages.toInt = count →
      FailsAt p count (.error (.error (.pageOutOfRange p g.record.pages)), g)
  /-- There was no room for another page before. -/
  | refused {failure : Failure} {g : PageFile} :
      g.NoRoom failure → FailsAt p count (.error failure, g)

variable {f : PageFile} {key : Int32} {n : Node} {ms : List Node} {p : PageId}

/-- A page before the first one or behind the last one is out of range. -/
theorem readPage_of_outside (h : p.val.toInt < 1 ∨ f.record.pages.toInt ≤ p.val.toInt) :
    f.readPage p = .error (.error (.pageOutOfRange p f.record.pages)) := by
  rw [readPage, if_neg]
  rw [Metadata.isAllocated_iff]
  omega

/-- Below a node whose child has room, an insertion goes on below the child. -/
theorem runOn_insertBelow_of_room (value : RowId) (fuel : Nat) {m : Node}
    (hchild : n.childFor key = some m.id) (hm : f.readPage m.id = .ok m) (hroom : ¬ m.isFull) :
    (insertBelow key value (fuel + 1) n).runOn f = (insertBelow key value fuel m).runOn f := by
  rw [runOn_insertBelow_internal key value fuel f (Node.not_isLeaf_of_childFor hchild),
    read_childAt hchild f, hm]
  simp only [if_neg hroom]

/-- **All that an insertion can do above a full child on its way**: there is no room for the second half,
or it goes on below the half that the key belongs to. -/
theorem insertBelow_onWay_cases (value : RowId) (fuel : Nat) {m : Node}
    (hpasses : f.Passes key n (m :: ms) p) (hnodup : ((n :: m :: ms).map Node.id).Nodup)
    (hroom : ¬ n.isFull) (hfull : m.isFull) (hsorted : m.keys.Pairwise (· ≤ ·)) :
    (∃ failure g, (insertBelow key value (fuel + 1) n).runOn f = (.error failure, g) ∧
      g.NoRoom failure) ∨
    ∃ g half,
      (insertBelow key value (fuel + 1) n).runOn f = (insertBelow key value fuel half).runOn g ∧
      g.Passes key half ms p ∧ ((half :: ms).map Node.id).Nodup ∧ ¬ half.isFull ∧
      g.record.pages.toInt = f.record.pages.toInt + 1 := by
  cases hpasses with
  | through hread hchild hbelow =>
    have hinner := Node.not_isLeaf_of_childFor hchild
    have hm := hbelow.read
    obtain ⟨hid, hmsnodup⟩ := List.nodup_cons.1 hnodup
    have hmid := (List.nodup_cons.1 hmsnodup).1
    have hne : m.id ≠ n.id := fun h => hid (h ▸ List.mem_cons_self)
    have hfit : ∀ separator, (n.withChild (Route.insertion key n.keys) separator
        f.nextPage).defect? = none := fun separator =>
      defect?_withChild (defect?_of_readPage hread) hinner (by simpa [Node.isFull] using hroom)
        (frontCount_le _ _) separator _
    rw [runOn_insertBelow_internal key value fuel f hinner, read_childAt hchild f, hm]
    simp only [if_pos hfull]
    rcases splitChild_onWay_cases key (isAllocated_of_readPage hread) hfit hchild hm hne hfull
      hsorted with
      ⟨failure, g, hrun, hrefused⟩ | ⟨g, separator, half, hrun, hhalf, hplace, -, hcount, hkept⟩
    · rw [hrun]
      exact Or.inl ⟨failure, g, rfl, hrefused.noRoom⟩
    rw [hrun]
    simp only
    rw [read_childAt hplace, hhalf.read]
    -- the nodes further below are not touched
    have hmskept : ∀ k ∈ ms, g.readPage k.id = f.readPage k.id := by
      intro k hk
      have hmem := List.mem_map_of_mem (f := Node.id) hk
      refine hkept k.id (hbelow.isAllocated k (List.mem_cons_of_mem m hk)) ?_ ?_
      · intro h
        exact hid (List.mem_cons_of_mem _ (h ▸ hmem))
      · intro h
        exact hmid (h ▸ hmem)
    obtain ⟨hhalfway, hhalfnodup⟩ := hbelow.half hmsnodup hhalf hmskept
    exact Or.inr ⟨g, half, rfl, hhalfway, hhalfnodup, hhalf.room, hcount⟩

/-- **An insertion below a node with room fails at a page that lies behind all that its splits
allocate.** -/
theorem insertBelow_failsAt (value : RowId) {fuel : Nat} (hpasses : f.Passes key n ms p)
    (hnodup : ((n :: ms).map Node.id).Nodup) (hsorted : ∀ m ∈ ms, m.keys.Pairwise (· ≤ ·))
    (hroom : ¬ n.isFull)
    (hp : p.val.toInt < 1 ∨ f.record.pages.toInt + ms.countP Node.isFull ≤ p.val.toInt)
    (hfuel : ms.length < fuel) :
    FailsAt p (f.record.pages.toInt + ms.countP Node.isFull)
      ((insertBelow key value fuel n).runOn f) := by
  -- along the nodes on the way: every full one moves the bounds by one page
  induction ms generalizing f n fuel with
  | nil =>
    obtain ⟨fuel, rfl⟩ : ∃ k, fuel = k + 1 := ⟨fuel - 1, by simp at hfuel; omega⟩
    cases hpasses with
    | here _ hchild =>
      have hout : f.readPage p = .error (.error (.pageOutOfRange p f.record.pages)) :=
        readPage_of_outside (by simpa using hp)
      rw [runOn_insertBelow_internal key value fuel f (Node.not_isLeaf_of_childFor hchild),
        read_childAt hchild f, hout]
      exact .outOfRange (by simp)
  | cons m ms ih =>
    obtain ⟨fuel, rfl⟩ : ∃ k, fuel = k + 1 := ⟨fuel - 1, by simp at hfuel; omega⟩
    rw [List.length_cons] at hfuel
    obtain ⟨hmsorted, hmssorted⟩ := List.forall_mem_cons.1 hsorted
    by_cases hfull : m.isFull
    · rw [List.countP_cons_of_pos hfull] at hp ⊢
      rcases insertBelow_onWay_cases value fuel hpasses hnodup hroom hfull hmsorted with
        ⟨failure, g, hrun, hnoroom⟩ | ⟨g, half, hrun, hhalfway, hhalfnodup, hhalfroom, hcount⟩
      · rw [hrun]
        exact .refused hnoroom
      rw [hrun]
      have hpages : f.record.pages.toInt + ((ms.countP Node.isFull + 1 : Nat) : Int)
          = g.record.pages.toInt + ms.countP Node.isFull := by
        rw [hcount]
        omega
      rw [hpages] at hp ⊢
      exact ih hhalfway hhalfnodup hmssorted hhalfroom hp (by omega)
    · cases hpasses with
      | through hread hchild hbelow =>
        rw [runOn_insertBelow_of_room value fuel hchild hbelow.read hfull]
        rw [List.countP_cons_of_neg hfull] at hp ⊢
        exact ih hbelow (List.nodup_cons.1 hnodup).2 hmssorted hfull hp (by omega)

/-- **The way from a root that was split** starts above its halves and goes on below one of them. -/
theorem Passes.overHalf {g k : PageFile} {half : Node} {id : PageId} {separator : Int32}
    (h : g.Passes key n ms p) (hnodup : ((n :: ms).map Node.id).Nodup)
    (hid : ∀ m ∈ n :: ms, m.id ≠ id) (hnext : g.nextPage ≠ id) (hhalf : HalfFor g k key n half)
    (hparent : k.readPage id = .ok (Node.overHalves id n.id separator g.nextPage))
    (hchild : (Node.overHalves id n.id separator g.nextPage).childFor key = some half.id)
    (hkept : ∀ m ∈ ms, k.readPage m.id = g.readPage m.id) :
    k.Passes key (Node.overHalves id n.id separator g.nextPage) (half :: ms) p ∧
      (id :: (half :: ms).map Node.id).Nodup := by
  obtain ⟨hhalfway, hhalfnodup⟩ := h.half hnodup hhalf hkept
  obtain ⟨hnid, hmsid⟩ := List.forall_mem_cons.1 hid
  refine ⟨.through hparent hchild hhalfway, List.nodup_cons.2 ⟨?_, hhalfnodup⟩⟩
  -- the new root is neither half, and none of the nodes that were there before
  rw [List.map_cons, List.mem_cons]
  rintro (h | h)
  · rcases hhalf.page with hpage | hpage
    · exact hnid (hpage.symm.trans h.symm)
    · exact hnext (hpage.symm.trans h.symm)
  · obtain ⟨m, hm, hmid⟩ := List.mem_map.1 h
    exact hmsid m hm hmid

/-- **All that splitting a full root on the way can do**, below a new root that was just allocated: there
is no room, or the way goes on from the new root. -/
theorem splitRoot_onWay_cases {g : PageFile} (hallocated : Allocated f g)
    (hpasses : f.Passes key n ms p) (hnodup : ((n :: ms).map Node.id).Nodup)
    (hsorted : n.keys.Pairwise (· ≤ ·)) (hfull : n.isFull) :
    (∃ failure k, (splitChild (Node.overChild f.nextPage n.id) 0 n).runOn g = (.error failure, k) ∧
      Refused g failure k) ∨
    ∃ k separator half,
      (splitChild (Node.overChild f.nextPage n.id) 0 n).runOn g
        = (.ok (Node.overHalves f.nextPage n.id separator g.nextPage, separator), k) ∧
      k.Passes key (Node.overHalves f.nextPage n.id separator g.nextPage) (half :: ms) p ∧
      (f.nextPage :: (half :: ms).map Node.id).Nodup ∧
      (¬ half.isFull ∧ half.keys.Pairwise (· ≤ ·)) ∧
      k.record.pages.toInt = f.record.pages.toInt + 2 := by
  have hold : ∀ m ∈ n :: ms, f.record.isAllocated m.id := hpasses.isAllocated
  have hid : g.record.isAllocated f.nextPage :=
    hallocated.isAllocated_nextPage (Metadata.one_le_pages_of_isAllocated (hold n List.mem_cons_self))
  have hother : ∀ m ∈ n :: ms, m.id ≠ f.nextPage :=
    fun m hm h => not_isAllocated_nextPage f (h ▸ hold m hm)
  have hreads : ∀ m ∈ n :: ms, g.readPage m.id = f.readPage m.id :=
    fun m hm => hallocated.read m.id (hold m hm)
  obtain ⟨hnread, hmsread⟩ := List.forall_mem_cons.1 hreads
  rw [hpasses.read] at hnread
  rcases splitChild_onWay_cases key (n := Node.overChild f.nextPage n.id) hid
    (fun separator => Node.defect?_overHalves f.nextPage n.id separator g.nextPage) rfl hnread
    (hother n List.mem_cons_self) hfull hsorted with
    hrefused | ⟨k, separator, half, hrun, hhalf, hplace, hparent, hcount, hkept⟩
  · exact Or.inl hrefused
  have hchild : (Node.overHalves f.nextPage n.id separator g.nextPage).childFor key
      = some half.id := by
    rw [Node.childFor_overHalves]
    exact hplace
  have hmskept : ∀ m ∈ ms, k.readPage m.id = g.readPage m.id := by
    intro m hm
    have hmem := List.mem_cons_of_mem n hm
    refine hkept m.id (hallocated.isAllocated (hold m hmem)) (hother m hmem) ?_
    intro h
    exact (List.nodup_cons.1 hnodup).1 (h ▸ List.mem_map_of_mem hm)
  have hnext : g.nextPage ≠ f.nextPage := fun h => not_isAllocated_nextPage g (h ▸ hid)
  obtain ⟨hway, hwaynodup⟩ := (hpasses.replace hnread rfl hmsread).overHalf hnodup hother hnext
    hhalf hparent hchild hmskept
  refine Or.inr ⟨k, separator, half, hrun, hway, hwaynodup, ⟨hhalf.room, hhalf.sorted⟩, ?_⟩
  rw [hcount, hallocated.toInt_pages]
  omega

/-- **An insertion into a file fails at a page that lies behind all that its splits allocate.** -/
theorem insertValue_failsAt (value : RowId) (hroot : n.id = f.root) (hpasses : f.Passes key n ms p)
    (hnodup : ((n :: ms).map Node.id).Nodup)
    (hsorted : ∀ m ∈ n :: ms, m.keys.Pairwise (· ≤ ·))
    (hp : p.val.toInt < 1 ∨ f.record.pages.toInt + splitPages n ms ≤ p.val.toInt) :
    FailsAt p (f.record.pages.toInt + splitPages n ms) ((insertValue key value).runOn f) := by
  obtain ⟨hnsorted, hmssorted⟩ := List.forall_mem_cons.1 hsorted
  have hvalid := Metadata.isValid_of_isAllocated (isAllocated_of_readPage hpasses.read)
  -- the nodes that are passed are fewer than the pages
  have hfuel : ms.length + 1 < insertionBound f.pageCount := by
    have hlength := length_le_of_nodup hnodup (by simpa using hpasses.isAllocated)
    have hbound := lt_insertionBound f.pageCount
    rw [List.length_map, List.length_cons] at hlength
    omega
  rw [insertValue, Action.runOn_bind, Action.runOn_get]
  simp only [← hroot, if_pos hvalid]
  rw [Action.runOn_bind, Action.runOn_ask, hpasses.read]
  simp only
  by_cases hfull : n.isFull
  · rw [if_pos hfull, Action.runOn_bind]
    rw [splitPages_of_isFull hfull] at hp ⊢
    rcases allocate_cases f with ⟨failure, g, hrun, hrefused⟩ | ⟨g, hrun, hallocated⟩
    · rw [hrun]
      exact .refused hrefused.noRoom
    rw [hrun]
    simp only
    rw [Action.runOn_bind]
    rcases splitRoot_onWay_cases hallocated hpasses hnodup hnsorted hfull with
      ⟨failure, k, hrun, hrefused⟩ | ⟨k, separator, half, hrun, hway, hwaynodup, ⟨hroom, hhalf⟩, hcount⟩
    · rw [hrun]
      exact .refused hrefused.noRoom
    rw [hrun]
    simp only
    have hid : k.record.isAllocated f.nextPage := isAllocated_of_readPage hway.read
    rw [Action.runOn_bind, runOn_setRoot, if_pos (Or.inr hid)]
    simp only
    have hwayRoot := hway.replace (g := k.withRoot f.nextPage)
      ((readPage_withRoot k _ _).trans hway.read) rfl fun m _ => readPage_withRoot k _ _
    -- the new root and the second half are counted by now
    have hpages : f.record.pages.toInt + ((ms.countP Node.isFull + 2 : Nat) : Int)
        = (k.withRoot f.nextPage).record.pages.toInt + (half :: ms).countP Node.isFull := by
      rw [List.countP_cons_of_neg hroom, record_withRoot]
      simp only
      omega
    rw [hpages] at hp ⊢
    exact insertBelow_failsAt value hwayRoot hwaynodup
      (List.forall_mem_cons.2 ⟨hhalf, hmssorted⟩) (Node.not_isFull_overHalves _ _ _ _) hp hfuel
  · rw [if_neg hfull]
    rw [splitPages_of_not_isFull hfull] at hp ⊢
    exact insertBelow_failsAt value hpasses hnodup hmssorted hfull hp (by omega)

/-- **An insertion fails at a page that is not allocated**, neither before the call nor by its splits.
It stops at the read of that page, with all pages counted that the splits above it cost, unless there is
no room for one of them. -/
theorem insert_fails_at_dangling_child (text : String) (hroot : n.id = f.root)
    (hpasses : f.Passes key n ms p) (hsorted : ∀ m ∈ n :: ms, m.keys.Pairwise (· ≤ ·))
    (hloop : ∀ q, ReflTransGen f.IsChild f.root q → ¬ TransGen f.IsChild q q)
    (hp : ¬ f.record.isAllocated p)
    (hnew : f.record.pages.toInt ≤ p.val.toInt →
      f.record.pages.toInt + splitPages n ms ≤ p.val.toInt) :
    ∃ failure g, (insert key text).runOn f = (.error failure, g) ∧
      (failure = .error (.pageOutOfRange p g.record.pages) ∧
          g.record.pages.toInt = f.record.pages.toInt + splitPages n ms ∨
        g.NoRoom failure) := by
  have hnodup := hpasses.nodup (by rwa [hroot])
  have hbehind : p.val.toInt < 1 ∨ f.record.pages.toInt + splitPages n ms ≤ p.val.toInt := by
    rw [Metadata.isAllocated_iff] at hp
    omega
  have hfails := insertValue_failsAt (RowId.ofText text) hroot hpasses hnodup hsorted hbehind
  rw [insert]
  generalize (insertValue key (RowId.ofText text)).runOn f = outcome at hfails ⊢
  cases hfails with
  | outOfRange hcount => exact ⟨_, _, rfl, Or.inl ⟨rfl, hcount⟩⟩
  | refused hnoroom => exact ⟨_, _, rfl, Or.inr hnoroom⟩

/-! ## (5) A file with a full root above one leaf -/

/-- A full root whose first child is `p`, and whose other children are all page 2. -/
def crowdedRoot (p : PageId) : Node :=
  ⟨⟨1⟩, (List.range Layout.maxKeys).map Int32.ofNat,
    .internal (p :: List.replicate Layout.maxKeys ⟨2⟩)⟩

/-- The leaf on page 2. -/
def crowdedLeaf : Node :=
  ⟨⟨2⟩, [500], .leaf [RowId.ofText "five hundred"] .none⟩

/-- A file with a full root above one leaf, with room for more pages. -/
def crowdedFile (p : PageId) : PageFile :=
  (withNode ⟨"crowded", FileImage.empty.resize 32768, 32768, ⟨⟨1⟩, 3⟩, .default, default, true⟩
    crowdedLeaf).withNode (crowdedRoot p)

/-- **What is read from a file with a full root above one leaf.** -/
structure Crowded (f : PageFile) (p : PageId) : Prop where
  /-- Two nodes are allocated. -/
  record : f.record = ⟨⟨1⟩, 3⟩
  /-- The root is on page 1. -/
  root : f.readPage ⟨1⟩ = .ok (crowdedRoot p)
  /-- The leaf is on page 2. -/
  leaf : f.readPage ⟨2⟩ = .ok crowdedLeaf

theorem defect?_crowdedRoot (p : PageId) : (crowdedRoot p).defect? = none := by
  rw [Node.defect?_eq_none_iff]
  simp [crowdedRoot]

theorem sorted_crowdedRoot (p : PageId) : (crowdedRoot p).keys.Pairwise (· ≤ ·) := by
  refine List.pairwise_map.2 ((List.pairwise_lt_range (n := Layout.maxKeys)).imp_of_mem ?_)
  intro i j _ hj hij
  -- so small a number is stored as it is
  have hlast := List.mem_range.1 hj
  simp only [Layout.maxKeys] at hlast
  rw [Int32.le_iff_toInt_le, Int32.toInt_ofNat_of_lt (by omega), Int32.toInt_ofNat_of_lt (by omega)]
  omega

theorem crowded_crowdedFile (p : PageId) : Crowded (crowdedFile p) p where
  record := rfl
  root := by
    rw [crowdedFile, readPage_withNode (defect?_crowdedRoot p) (by rfl)]
    rfl
  leaf := by
    have hid : (crowdedRoot p).id = ⟨1⟩ := rfl
    rw [crowdedFile, readPage_withNode (defect?_crowdedRoot p) (by rfl), hid, if_neg (by decide),
      readPage_withNode (by decide) (by decide)]
    rfl

namespace Crowded

variable {f : PageFile} {p : PageId} (h : Crowded f p)

include h

/-- An insertion of a key below all others meets the first child. -/
theorem passes : f.Passes (-1) (crowdedRoot p) [] p :=
  .here h.root rfl

/-- There are two nodes. -/
theorem eq_of_readPage {q : PageId} {n : Node} (hn : f.readPage q = .ok n) :
    n = crowdedRoot p ∨ n = crowdedLeaf := by
  have ha := isAllocated_of_readPage hn
  rw [Metadata.isAllocated_iff, h.record] at ha
  have hthree : (3 : Int32).toInt = 3 := by decide
  simp only [hthree] at ha
  obtain hq | hq : q.val.toInt = 1 ∨ q.val.toInt = 2 := by omega
  · obtain rfl : q = ⟨1⟩ := congrArg PageId.mk (Int32.toInt_inj.1 hq)
    exact Or.inl (Except.ok.inj (hn.symm.trans h.root))
  · obtain rfl : q = ⟨2⟩ := congrArg PageId.mk (Int32.toInt_inj.1 hq)
    exact Or.inr (Except.ok.inj (hn.symm.trans h.leaf))

/-- Only the root has children. -/
theorem eq_root_of_isChild {q r : PageId} (hp : p ≠ ⟨1⟩) (hstep : f.IsChild q r) :
    q = ⟨1⟩ ∧ r ≠ ⟨1⟩ := by
  obtain ⟨n, hn, hr⟩ := hstep
  have hid := id_of_readPage hn
  rcases h.eq_of_readPage hn with rfl | rfl
  · refine ⟨hid.symm, ?_⟩
    rcases List.mem_cons.1 hr with rfl | hr
    · exact hp
    · rw [List.eq_of_mem_replicate hr]
      decide
  · cases hr

/-- No child leads back. -/
theorem no_loop (hp : p ≠ ⟨1⟩) (q : PageId) : ¬ TransGen f.IsChild q q := by
  intro hcycle
  obtain ⟨r, hstep, hback⟩ := TransGen.head'_iff.1 hcycle
  obtain ⟨rfl, hr⟩ := h.eq_root_of_isChild hp hstep
  rcases ReflTransGen.cases_head hback with heq | ⟨s, hnext, -⟩
  · exact hr heq
  · exact hr (h.eq_root_of_isChild hp hnext).1

end Crowded

/-- The file can be opened, with all its nodes. -/
theorem exists_openImage_crowdedFile (p : PageId) :
    ∃ f, openImage default "crowded" (crowdedFile p).flushed.image .default = .ok f ∧ Crowded f p ∧
      f.capacity = 32768 := by
  have hlength : (crowdedFile p).flushed.image.length = 32768 := FileImage.length_resize _ _
  have hinUse : (crowdedFile p).flushed.InUse :=
    inUse_flushed (by rfl) (show 3 * 4096 ≤ 32768 by decide) (Nat.le_of_eq hlength.symm)
  have hmaps : (default : Host).maps (crowdedFile p).flushed.image.length := by
    rw [hlength]
    decide
  have hopen := openImage_image hinUse hmaps "crowded" .default
  obtain ⟨hrecord, hreads⟩ := openImage_flushed_eq_ok hopen
  obtain ⟨hfile, hroot, hleaf⟩ := crowded_crowdedFile p
  exact ⟨_, hopen, ⟨hrecord.trans hfile, (hreads _).trans hroot, (hreads _).trans hleaf⟩, hlength⟩

theorem insert_fails_at_dangling_child_crowdedFile :
    ¬ (crowdedFile ⟨9⟩).record.isAllocated ⟨9⟩ ∧
      ∃ failure g, (insert (-1) "below all").runOn (crowdedFile ⟨9⟩) = (.error failure, g) ∧
        (failure = .error (.pageOutOfRange ⟨9⟩ g.record.pages) ∧ g.record.pages.toInt = 5 ∨
          g.NoRoom failure) := by
  have h := crowded_crowdedFile ⟨9⟩
  have hp : ¬ (crowdedFile ⟨9⟩).record.isAllocated ⟨9⟩ := by decide
  have hsorted : ∀ m ∈ [crowdedRoot ⟨9⟩], m.keys.Pairwise (· ≤ ·) :=
    List.forall_mem_singleton.2 (sorted_crowdedRoot ⟨9⟩)
  exact ⟨hp, insert_fails_at_dangling_child "below all" (by rfl) h.passes hsorted
    (fun q _ => h.no_loop (by decide) q) hp fun _ => by decide⟩

/-- The first half of the full root over page 4. -/
def crowdedLeft : Node :=
  ⟨⟨1⟩, (List.range Layout.minDegree).map Int32.ofNat,
    .internal (⟨4⟩ :: List.replicate Layout.minDegree ⟨2⟩)⟩

/-- The second half of the full root over page 4. -/
def crowdedRight : Node :=
  ⟨⟨4⟩, (List.range' 57 55).map Int32.ofNat, .internal (List.replicate Layout.minDegree ⟨2⟩)⟩

theorem split?_crowdedRoot :
    (crowdedRoot ⟨4⟩).split? ⟨4⟩ = some ⟨crowdedLeft, 56, crowdedRight⟩ := rfl

/-- **An insertion below the halves goes through the second of them twice**, as a child of the new root
and as one of the first half. -/
theorem insertBelow_crowded {f : PageFile} (hleft : f.readPage ⟨1⟩ = .ok crowdedLeft)
    (hright : f.readPage ⟨4⟩ = .ok crowdedRight) (hleaf : f.readPage ⟨2⟩ = .ok crowdedLeaf)
    (value : RowId) (fuel : Nat) :
    ∃ g, (insertBelow (-1) value (fuel + 3) (Node.overHalves ⟨3⟩ ⟨1⟩ 56 ⟨4⟩)).runOn f
      = (.ok (), g) := by
  have hfits : (crowdedLeaf.withEntry (-1) value).defect? = none := by
    rw [Node.defect?_eq_none_iff]
    exact ⟨show 2 ≤ Layout.maxKeys by decide, rfl⟩
  refine ⟨f.withNode (crowdedLeaf.withEntry (-1) value), ?_⟩
  rw [runOn_insertBelow_of_room value (fuel + 2) (m := crowdedLeft) rfl hleft (by decide),
    runOn_insertBelow_of_room value (fuel + 1) (m := crowdedRight) rfl hright (by decide),
    runOn_insertBelow_of_room value fuel (m := crowdedLeaf) rfl hleaf (by decide)]
  rw [insertBelow.eq_def]
  show (writePage (crowdedLeaf.withEntry (-1) value)).runOn f = _
  exact runOn_writePage_of_fits (isAllocated_of_readPage hleaf) hfits

/-- **The split of the full root** allocates page 4, the first child of the first half. -/
theorem splitChild_crowded {f : PageFile} (hrecord : f.record = ⟨⟨1⟩, 4⟩)
    (hcapacity : f.capacity = 32768) (hleaf : f.readPage ⟨2⟩ = .ok crowdedLeaf) :
    ∃ g, (splitChild (Node.overChild ⟨3⟩ ⟨1⟩) 0 (crowdedRoot ⟨4⟩)).runOn f
        = (.ok (Node.overHalves ⟨3⟩ ⟨1⟩ 56 ⟨4⟩, 56), g) ∧
      g.record = ⟨⟨1⟩, 5⟩ ∧ g.readPage ⟨1⟩ = .ok crowdedLeft ∧
      g.readPage ⟨4⟩ = .ok crowdedRight ∧ g.readPage ⟨2⟩ = .ok crowdedLeaf := by
  have hfits : f.record.pages ≠ Int32.maxValue := by
    rw [hrecord]
    decide
  have hnext : f.nextPage = ⟨4⟩ := by rw [nextPage, hrecord]
  have hallocate : allocate.runOn f = (.ok f.nextPage, f.withFreshPage) := by
    refine runOn_allocate_of_room hfits ?_
    rw [neededLength, pageCount, hrecord, hcapacity]
    decide
  have hgrecord : f.withFreshPage.record = ⟨⟨1⟩, 5⟩ := by
    rw [record_withFreshPage, hrecord]
    rfl
  have hgleaf : f.withFreshPage.readPage ⟨2⟩ = .ok crowdedLeaf := by
    rw [readPage_withFreshPage hfits (isAllocated_of_readPage hleaf), hleaf]
  generalize f.withFreshPage = g at hallocate hgrecord hgleaf
  have hallocated : ∀ p ∈ [(⟨1⟩ : PageId), ⟨3⟩, ⟨4⟩], g.record.isAllocated p := by
    rw [hgrecord]
    decide
  have hone : g.record.isAllocated crowdedLeft.id := hallocated ⟨1⟩ (by decide)
  have hthree : g.record.isAllocated (Node.overHalves ⟨3⟩ ⟨1⟩ 56 ⟨4⟩).id :=
    hallocated ⟨3⟩ (by decide)
  have hfour : g.record.isAllocated crowdedRight.id := hallocated ⟨4⟩ (by decide)
  have hleftFits : crowdedLeft.defect? = none := by decide
  have hrightFits : crowdedRight.defect? = none := by decide
  have hparentFits := Node.defect?_overHalves ⟨3⟩ ⟨1⟩ 56 ⟨4⟩
  have hsplit : (crowdedRoot ⟨4⟩).split? f.nextPage = some ⟨crowdedLeft, 56, crowdedRight⟩ := by
    rw [hnext, split?_crowdedRoot]
  have hwrites := runOn_splitChild (Node.overChild ⟨3⟩ ⟨1⟩) 0 hallocate hsplit hone hleftFits hfour
    hrightFits hthree (by rw [hnext]; exact hparentFits)
  have hread := readPage_writes hone hleftFits hfour hrightFits hthree hparentFits
  rw [hnext] at hwrites
  refine ⟨_, hwrites, hgrecord, ?_, ?_, ?_⟩
  · exact hread ⟨1⟩
  · exact hread ⟨4⟩
  · exact (hread ⟨2⟩).trans hgleaf

/-- **An insertion goes through a child that its own split allocates.** -/
theorem insert_crowded {f : PageFile} (h : Crowded f ⟨4⟩) (hcapacity : f.capacity = 32768)
    (text : String) : ∃ g, (insert (-1) text).runOn f = (.ok (), g) := by
  have hroot : f.root = ⟨1⟩ := by rw [PageFile.root, h.record]
  have hcount : f.pageCount = 3 := by
    rw [pageCount, h.record]
    decide
  have hfits : f.record.pages ≠ Int32.maxValue := by
    rw [h.record]
    decide
  have hnext : f.nextPage = ⟨3⟩ := by rw [nextPage, h.record]
  have hallocate : allocate.runOn f = (.ok ⟨3⟩, f.withFreshPage) := by
    rw [← hnext]
    refine runOn_allocate_of_room hfits ?_
    rw [neededLength, hcount, hcapacity]
    decide
  have hrecord : f.withFreshPage.record = ⟨⟨1⟩, 4⟩ := by
    rw [record_withFreshPage, h.record]
    rfl
  have hleaf : f.withFreshPage.readPage ⟨2⟩ = .ok crowdedLeaf := by
    rw [readPage_withFreshPage hfits (isAllocated_of_readPage h.leaf), h.leaf]
  obtain ⟨g, hsplit, hgrecord, hgleft, hgright, hgleaf⟩ :=
    splitChild_crowded hrecord (by rw [capacity_withFreshPage, hcapacity]) hleaf
  have hthree : g.record.isAllocated ⟨3⟩ := by
    rw [hgrecord]
    decide
  -- the insertion goes on from the new root, as far as the leaf
  obtain ⟨k, hbelow⟩ := insertBelow_crowded (f := g.withRoot ⟨3⟩)
    ((readPage_withRoot g _ _).trans hgleft) ((readPage_withRoot g _ _).trans hgright)
    ((readPage_withRoot g _ _).trans hgleaf) (RowId.ofText text) 173
  refine ⟨k, ?_⟩
  rw [insert, insertValue, Action.runOn_bind, Action.runOn_get]
  simp only [hroot]
  rw [if_pos (by decide), Action.runOn_bind, Action.runOn_ask, h.root]
  simp only
  rw [if_pos (by rfl), Action.runOn_bind, hallocate]
  simp only
  rw [Action.runOn_bind, hsplit]
  simp only
  rw [Action.runOn_bind, runOn_setRoot, if_pos (Or.inr hthree), hcount]
  exact hbelow

/-- A search for the same key is stopped by the child. -/
theorem search_crowded {f : PageFile} (h : Crowded f ⟨4⟩) :
    f.search (-1) = .error (.error (.pageOutOfRange ⟨4⟩ 3)) := by
  have hroot : f.root = ⟨1⟩ := by rw [PageFile.root, h.record]
  have hcount : f.pageCount = 3 := by
    rw [pageCount, h.record]
    decide
  have hout : f.readPage ⟨4⟩ = .error (.error (.pageOutOfRange ⟨4⟩ 3)) := by
    rw [readPage, h.record, if_neg (by decide)]
  have hdescend : f.descend (Route.lookup (-1)) 3 (crowdedRoot ⟨4⟩)
      = .error (.error (.pageOutOfRange ⟨4⟩ 3)) := by
    rw [descend.eq_def]
    simp only [crowdedRoot]
    change (f.readPage ⟨4⟩ >>= f.descend (Route.lookup (-1)) 2) = _
    rw [hout]
    rfl
  rw [search, leafBy, hroot, if_pos (by decide), h.root, hcount]
  change ((f.descend (Route.lookup (-1)) 3 (crowdedRoot ⟨4⟩)) >>= _) >>= _ = _
  rw [hdescend]
  rfl

/-- **A child that is not allocated does not always stop an insertion.** The file can be opened, and a
search for the key is stopped by the child. -/
theorem insert_passes_dangling_child_crowdedFile :
    ∃ f, openImage default "crowded" (crowdedFile ⟨4⟩).flushed.image .default = .ok f ∧
      (crowdedRoot ⟨4⟩).id = f.root ∧ f.Passes (-1) (crowdedRoot ⟨4⟩) [] ⟨4⟩ ∧
      (∀ m ∈ [crowdedRoot ⟨4⟩], m.keys.Pairwise (· ≤ ·)) ∧
      (∀ q, ReflTransGen f.IsChild f.root q → ¬ TransGen f.IsChild q q) ∧
      ¬ f.record.isAllocated ⟨4⟩ ∧
      f.search (-1) = .error (.error (.pageOutOfRange ⟨4⟩ 3)) ∧
      ∃ g, (insert (-1) "below all").runOn f = (.ok (), g) := by
  obtain ⟨f, hopen, h, hcapacity⟩ := exists_openImage_crowdedFile ⟨4⟩
  have hroot : f.root = ⟨1⟩ := by rw [PageFile.root, h.record]
  have hp : ¬ f.record.isAllocated ⟨4⟩ := by
    rw [h.record]
    decide
  refine ⟨f, hopen, hroot.symm, h.passes, List.forall_mem_singleton.2 (sorted_crowdedRoot ⟨4⟩),
    fun q _ => h.no_loop (by decide) q, hp, search_crowded h, insert_crowded h hcapacity "below all"⟩

end PageFile

end RowIndex
