import RowIndex.Proofs.LeafChain
import RowIndex.Proofs.OpenFiles
import Mathlib.Logic.Relation

/-! # What an audit accepts

An audit looks at the first and the last key of a node, hands bounds down the tree and compares two
lists of leaves. It accepts exactly the trees that keep every rule at every node.

* **`PageFile.Carries`** — the file has an ordered tree under its root, and the chain meets its leaves.
* **`verify_eq_ok_iff`** — an audit accepts a file without a root and files that carry a tree.
* **`Tree.KeepsRules`** — the rules of the nodes, each on its own; `ordered_iff_keepsRules` says that
  ordered trees keep them, and no others.
* **`verify_ne_fault`** — without a loop among the children, an audit comes to an end.
* **`verify_of_openImage`** — an audit accepts the well-formed trees only, and counts their nodes and
  slots. -/

namespace RowIndex

namespace PageFile

open RowIndex.Tree

/-! ## (1) Trees that a file carries -/

/-- **The file carries a tree**: it holds the tree under its root, the nodes keep all rules, and the
leaf chain meets the leaves from left to right and then ends. -/
structure Carries (f : PageFile) (height : Nat) (t : Tree) : Prop where
  /-- The tree hangs at the root. -/
  page : t.page = f.root
  /-- Its nodes are what the file has on their pages. -/
  held : f.Holds t
  /-- The nodes keep all rules. -/
  ordered : Ordered height none none t
  /-- The leaves are linked in their order. -/
  linked : ∃ stop : PageId, ¬ stop.isValid ∧ Linked t.leaves stop

namespace Carries

variable {f : PageFile} {height : Nat} {t : Tree}

theorem isAllocated_root (h : f.Carries height t) : f.record.isAllocated f.root := by
  rw [← h.page]
  exact isAllocated_of_readPage h.held.readPage

/-- The leaves lie on different pages. -/
theorem nodup_leaves (h : f.Carries height t) : (t.leaves.map Leaf.id).Nodup := by
  obtain ⟨stop, hstop, hlinked⟩ := h.linked
  exact h.held.leaves.nodup hstop hlinked

/-- All nodes lie on different pages. -/
theorem nodup_pages (h : f.Carries height t) : t.pages.Nodup :=
  h.held.nodup_pages h.nodup_leaves

/-- There are fewer nodes than pages. -/
theorem length_subtrees_le (h : f.Carries height t) : t.subtrees.length ≤ f.pageCount - 1 := by
  have hle := length_le_of_nodup h.nodup_pages fun p hp => h.held.isAllocated hp
  rwa [pages, List.length_map] at hle

/-- The tree is read from the file. -/
theorem tree_eq (h : f.Carries height t) : f.tree = .ok (some t) := by
  have hread : f.treeAt f.pageCount f.root = .ok t := by
    rw [← h.page]
    exact h.held.treeAt (Nat.le_trans h.length_subtrees_le (Nat.sub_le _ 1))
  rw [tree, if_pos (Metadata.isValid_of_isAllocated h.isAllocated_root), hread]
  rfl

end Carries

/-- **Another file carries the tree too** if its record is the same and its pages read the same. -/
theorem Carries.congr {f g : PageFile} {height : Nat} {t : Tree} (h : f.Carries height t)
    (hrecord : g.record = f.record) (hread : ∀ p, g.readPage p = f.readPage p) :
    g.Carries height t where
  page := by rw [h.page, root, root, hrecord]
  held := h.held.congr fun p _ => hread p
  ordered := h.ordered
  linked := h.linked

/-- The tree of a file, if it can be read, hangs at the root. -/
theorem tree_cases {f : PageFile} {found : Option Tree} (h : f.tree = .ok found) :
    (found = none ∧ ¬ f.root.isValid) ∨ ∃ t, found = some t ∧ t.page = f.root ∧ f.Holds t := by
  unfold tree at h
  split at h
  · cases hread : f.treeAt f.pageCount f.root with
    | error e =>
      rw [hread] at h
      cases h
    | ok t =>
      rw [hread] at h
      cases h
      exact Or.inr ⟨t, rfl, holds_of_treeAt hread⟩
  · rename_i hroot
    cases h
    exact Or.inl ⟨rfl, hroot⟩

/-- An audit of a file, once its tree is read. -/
theorem verify_eq (f : PageFile) :
    f.verify =
      match f.tree with
      | .error e => .error e
      | .ok none => .ok (TreeStats.ofEmpty f.record.pages)
      | .ok (some t) =>
        match f.chainViolations (t.leaves.map Leaf.id) with
        | .error e => .error e
        | .ok inChain =>
          let found := t.violations t.leftDepth 1 none none ++ inChain
          if found.isEmpty then .ok (t.stats f.record.pages)
          else .error (.error (.structureViolation found)) := by
  rw [verify, audit]
  simp only [bind, Except.bind]
  cases f.tree with
  | error e => rfl
  | ok found =>
    cases found with
    | none => rfl
    | some t =>
      simp only
      cases f.chainViolations (t.leaves.map Leaf.id) with
      | error e => rfl
      | ok inChain => rfl

/-- **An audit accepts** a file without a root, and files that carry a tree. -/
theorem verify_eq_ok_iff {f : PageFile} {s : TreeStats} :
    f.verify = .ok s ↔
      (¬ f.root.isValid ∧ s = TreeStats.ofEmpty f.record.pages) ∨
        ∃ height t, f.Carries height t ∧ s = t.stats f.record.pages := by
  constructor
  · intro h
    rw [verify_eq] at h
    split at h
    · cases h
    · rename_i htree
      cases h
      obtain ⟨-, hroot⟩ | ⟨t, ht, -⟩ := tree_cases htree
      · exact Or.inl ⟨hroot, rfl⟩
      · cases ht
    · rename_i t htree
      obtain ⟨ht, -⟩ | ⟨_, ht, hpage, hheld⟩ := tree_cases htree
      · cases ht
      cases ht
      split at h
      · cases h
      · rename_i inChain hchain
        simp only at h
        split at h
        · rename_i hempty
          cases h
          -- nothing was found, neither at the nodes nor along the chain
          obtain ⟨hnodes, rfl⟩ := List.append_eq_nil_iff.1 (List.isEmpty_iff.1 hempty)
          obtain ⟨height, hordered⟩ := (violations_leftDepth_eq_nil_iff hheld.fits).1 hnodes
          have hlinked := (chainViolations_eq_nil_iff hheld hordered).1 hchain
          exact Or.inr ⟨height, t, ⟨hpage, hheld, hordered, hlinked⟩, rfl⟩
        · cases h
  · rintro (⟨hroot, rfl⟩ | ⟨height, t, h, rfl⟩)
    · rw [verify_eq, tree, if_neg hroot]
    · -- a carried tree gives neither part of the audit anything to find
      have hnodes := (violations_leftDepth_eq_nil_iff h.held.fits).2 ⟨height, h.ordered⟩
      have hchain := (chainViolations_eq_nil_iff h.held h.ordered).2 h.linked
      rw [verify_eq, h.tree_eq]
      simp only [hchain, hnodes]
      rfl

end PageFile

/-! ## (2) The rules of the nodes, one by one -/

namespace Tree

/-- The first key of the leftmost leaf, none when that leaf is empty. -/
def leftmostKey (t : Tree) : Option Int32 :=
  t.leaves.head?.bind fun l => l.entries.head?.map (·.1)

/-- **The rules of the nodes**, each for all nodes of a tree. -/
structure KeepsRules (t : Tree) : Prop where
  /-- No key of a node is above a later one. -/
  sorted : ∀ s ∈ t.subtrees, s.keys.Pairwise (· ≤ ·)
  /-- Every internal node has keys. -/
  keyed : ∀ id keys children, branch id keys children ∈ t.subtrees → keys ≠ []
  /-- Every separator is the first key of the leftmost leaf to its right, which is not empty. -/
  separators : ∀ id keys children, branch id keys children ∈ t.subtrees →
    ∀ (i : Nat) (key : Int32) (c : Tree), keys[i]? = some key → children[i + 1]? = some c →
      c.leftmostKey = some key
  /-- No key below the child to the left of a separator is above the separator. -/
  upper : ∀ id keys children, branch id keys children ∈ t.subtrees →
    ∀ (i : Nat) (key : Int32) (c : Tree), keys[i]? = some key → children[i]? = some c →
      ∀ s ∈ c.subtrees, ∀ k ∈ s.keys, k ≤ key
  /-- No key below the child to the right of a separator is below the separator. -/
  lower : ∀ id keys children, branch id keys children ∈ t.subtrees →
    ∀ (i : Nat) (key : Int32) (c : Tree), keys[i]? = some key → children[i + 1]? = some c →
      ∀ s ∈ c.subtrees, ∀ k ∈ s.keys, key ≤ k

theorem leftmostKey_eq_least {t : Tree} (ht : t.Fits) : t.leftmostKey = t.least := by
  induction t with
  | leaf id es next => simp [leftmostKey]
  | branch id keys children ih =>
    obtain ⟨first, rest, rfl⟩ : ∃ first rest, children = first :: rest :=
      List.exists_cons_of_length_eq_add_one ht.length_children
    have hfirst := ht.of_mem_children (List.mem_cons_self (a := first) (l := rest))
    have hleast : (branch id keys (first :: rest)).least = first.least := by simp
    rw [hleast, ← ih first List.mem_cons_self hfirst, leftmostKey, leftmostKey, leaves_branch,
      List.flatMap_cons]
    obtain ⟨l, ls, hleaves⟩ := List.exists_cons_of_ne_nil hfirst.leaves_ne_nil
    rw [hleaves, List.cons_append]
    rfl

/-- The rules are kept in every subtree. -/
theorem KeepsRules.of_mem_subtrees {s t : Tree} (h : t.KeepsRules) (hs : s ∈ t.subtrees) :
    s.KeepsRules where
  sorted u hu := h.sorted u (mem_subtrees_trans hu hs)
  keyed id keys children hb := h.keyed id keys children (mem_subtrees_trans hb hs)
  separators id keys children hb := h.separators id keys children (mem_subtrees_trans hb hs)
  upper id keys children hb := h.upper id keys children (mem_subtrees_trans hb hs)
  lower id keys children hb := h.lower id keys children (mem_subtrees_trans hb hs)

/-- An ordered tree keeps the rules of the nodes. -/
theorem Ordered.keepsRules {height : Nat} {lower upper : Option Int32} {t : Tree} (ht : t.Fits)
    (h : Ordered height lower upper t) : t.KeepsRules := by
  -- every branch below the top is ordered between some bounds of its own
  have hbranch : ∀ id keys children, branch id keys children ∈ t.subtrees →
      ∃ height lower upper, keys ≠ [] ∧ Row (Ordered height) lower upper keys children ∧
        (branch id keys children).Fits := by
    intro id keys children hmem
    obtain ⟨height, lower, upper, hordered⟩ := h.of_mem_subtrees hmem
    cases height with
    | zero => exact absurd hordered (by simp [Ordered])
    | succ height =>
      obtain ⟨hkeys, -, hrow⟩ := ordered_branch_iff.1 hordered
      exact ⟨height, lower, upper, hkeys, hrow, ht.of_mem_subtrees hmem⟩
  constructor
  case sorted =>
    intro s hs
    obtain ⟨height, lower, upper, hordered⟩ := h.of_mem_subtrees hs
    exact hordered.keysFit.sorted
  case keyed =>
    intro id keys children hmem
    obtain ⟨_, _, _, hkeys, -⟩ := hbranch id keys children hmem
    exact hkeys
  case separators =>
    intro id keys children hmem i key c hkey hc
    obtain ⟨_, _, _, -, hrow, hfits⟩ := hbranch id keys children hmem
    rw [leftmostKey_eq_least (hfits.of_mem_children (List.mem_of_getElem? hc))]
    exact ((row_iff_getElem hfits.length_children).1 hrow).2 i key c hkey hc
  case upper =>
    intro id keys children hmem i key c hkey hc s hs k hk
    obtain ⟨_, _, upper, -, hrow, hfits⟩ := hbranch id keys children hmem
    have hplace := ((row_iff_getElem hfits.length_children).1 hrow).1 i c hc
    rw [gapUpper_drop hkey] at hplace
    exact (hplace.within s hs k hk).upper key rfl
  case lower =>
    intro id keys children hmem i key c hkey hc s hs k hk
    obtain ⟨_, lower, _, -, hrow, hfits⟩ := hbranch id keys children hmem
    have hplace := ((row_iff_getElem hfits.length_children).1 hrow).1 (i + 1) c hc
    rw [gapLower_take hkey] at hplace
    exact (hplace.within s hs k hk).lower key rfl

/-- **Ordered trees are those that keep the rules of the nodes**, with all leaves at one height and
all keys between the bounds. -/
theorem ordered_iff_keepsRules {height : Nat} {lower upper : Option Int32} {t : Tree}
    (ht : t.Fits) :
    Ordered height lower upper t ↔
      Balanced height t ∧ t.KeepsRules ∧
        ∀ s ∈ t.subtrees, ∀ key ∈ s.keys, Within lower upper key := by
  constructor
  · exact fun h => ⟨h.balanced, h.keepsRules ht, h.within⟩
  · rintro ⟨hbalanced, hrules, hwithin⟩
    induction t generalizing height lower upper with
    | leaf id es next =>
      cases height with
      | zero =>
        have hself := self_mem_subtrees (leaf id es next)
        exact ordered_leaf_iff.2 ⟨hrules.sorted _ hself, hwithin _ hself⟩
      | succ height => exact hbalanced.elim
    | branch id keys children ih =>
      cases height with
      | zero => exact hbalanced.elim
      | succ height =>
        have hself := self_mem_subtrees (branch id keys children)
        have hbelow : ∀ c ∈ children, ∀ s ∈ c.subtrees,
            s ∈ (branch id keys children).subtrees := by
          intro c hc s hs
          rw [subtrees_branch]
          exact List.mem_cons_of_mem _ (List.mem_flatMap.2 ⟨c, hc, hs⟩)
        refine ordered_branch_iff.2 ⟨hrules.keyed _ _ _ hself,
          ⟨hrules.sorted _ hself, hwithin _ hself⟩,
          (row_iff_getElem ht.length_children).2 ⟨fun i c hc => ?_, fun i key c hkey hc => ?_⟩⟩
        · have hmem := List.mem_of_getElem? hc
          refine ih c hmem (ht.of_mem_children hmem) (hbalanced c hmem)
            (hrules.of_mem_subtrees (hbelow c hmem c (self_mem_subtrees c))) ?_
          intro s hs key hkey
          -- a bound of the place is a separator next to it, or one of the outer bounds
          have houter := hwithin s (hbelow c hmem s hs) key hkey
          constructor
          · intro bound hbound
            cases i with
            | zero => exact houter.lower bound (by simpa using hbound)
            | succ i =>
              have hi : i < keys.length := by
                have hlen := ht.length_children
                have hlt := (List.getElem?_eq_some_iff.1 hc).1
                omega
              have hget := List.getElem?_eq_getElem hi
              rw [gapLower_take hget] at hbound
              cases hbound
              exact hrules.lower _ _ _ hself i _ c hget hc s hs key hkey
          · intro bound hbound
            rcases Option.or_eq_some_iff.1 hbound with hbound | ⟨-, hbound⟩
            · rw [List.head?_drop] at hbound
              exact hrules.upper _ _ _ hself i bound c hbound hc s hs key hkey
            · exact houter.upper bound hbound
        · have hmem := List.mem_of_getElem? hc
          rw [← leftmostKey_eq_least (ht.of_mem_children hmem)]
          exact hrules.separators _ _ _ hself i key c hkey hc

/-! ## (3) What is counted -/

/-- The leaves are the nodes that are leaves. -/
theorem length_leaves_eq_countP (t : Tree) :
    t.leaves.length = t.subtrees.countP fun s => s.node.isLeaf := by
  induction t with
  | leaf id es next => simp [node, Node.isLeaf]
  | branch id keys children ih =>
    have htop : (branch id keys children).node.isLeaf = false := rfl
    rw [leaves_branch, subtrees_branch, List.countP_cons_of_neg (by simp [htop]),
      List.length_flatMap, List.countP_flatMap]
    exact congrArg List.sum (List.map_congr_left ih)

/-- The branches are the other nodes. -/
theorem branchCount_eq_countP (t : Tree) :
    t.branchCount = t.subtrees.countP fun s => !s.node.isLeaf := by
  induction t with
  | leaf id es next => simp [node, Node.isLeaf]
  | branch id keys children ih =>
    have htop : (branch id keys children).node.isLeaf = false := rfl
    rw [branchCount_branch, subtrees_branch, List.countP_cons_of_pos (by simp [htop])]
    congr 1
    clear htop
    induction children with
    | nil => simp
    | cons t ts ihts =>
      obtain ⟨ht, hts⟩ := List.forall_mem_cons.1 ih
      rw [branchCountOf_cons, List.flatMap_cons, List.countP_append, ht, ihts hts]

/-- The slots of the entries are those of the nodes. -/
theorem slots_eq_flatMap (t : Tree) :
    t.entries.map (·.2) = t.subtrees.flatMap fun s => s.node.values := by
  induction t with
  | leaf id es next => simp [node, Node.values]
  | branch id keys children ih =>
    have htop : (branch id keys children).node.values = [] := rfl
    rw [entries_branch, subtrees_branch, List.flatMap_cons, htop, List.nil_append,
      List.map_flatMap, List.flatMap_assoc]
    exact List.flatMap_congr ih

end Tree

namespace PageFile

open RowIndex.Tree Relation

/-! ## (4) Descents without a loop -/

/-- **Whether a node leads to a page**: the page is among the node's children. -/
def IsChild (f : PageFile) (p q : PageId) : Prop :=
  ∃ n, f.readPage p = .ok n ∧ q ∈ n.children

/-- Where a row of reads fails, one of them does. -/
theorem exists_of_mapM_eq_error {read : PageId → Except Failure Tree} {ps : List PageId}
    {e : Failure} (h : ps.mapM read = .error e) : ∃ p ∈ ps, read p = .error e := by
  -- the first child that cannot be read decides
  induction ps with
  | nil => cases h
  | cons p ps ih =>
    rw [List.mapM_cons] at h
    cases hp : read p with
    | error e' =>
      rw [hp] at h
      cases h
      exact ⟨p, List.mem_cons_self, hp⟩
    | ok t =>
      cases hps : ps.mapM read with
      | error e' =>
        rw [hp, hps] at h
        cases h
        obtain ⟨q, hq, hread⟩ := ih hps
        exact ⟨q, List.mem_cons_of_mem _ hq, hread⟩
      | ok ts =>
        rw [hp, hps] at h
        cases h

/-- **Without a loop among the children, a tree is given up only where a page cannot be read.** The
nodes above a page are all different, so there are fewer of them than pages. -/
theorem exists_of_treeAt_eq_error {f : PageFile} (hpages : 1 ≤ f.pageCount)
    (hloop : ∀ p, ReflTransGen f.IsChild f.root p → ¬ TransGen f.IsChild p p)
    {above : List PageId} (hnodup : above.Nodup) {p : PageId}
    (habove : ∀ a ∈ above, f.record.isAllocated a ∧ TransGen f.IsChild a p)
    (hp : ReflTransGen f.IsChild f.root p) {fuel : Nat}
    (hfuel : f.pageCount ≤ above.length + fuel) {e : Failure} (h : f.treeAt fuel p = .error e) :
    ∃ q, ReflTransGen f.IsChild f.root q ∧ f.readPage q = .error e := by
  induction fuel generalizing above p with
  | zero =>
    -- no fuel is left, but there are fewer nodes above than pages
    have hlen := length_le_of_nodup hnodup fun a ha => (habove a ha).1
    omega
  | succ fuel ih =>
    rw [treeAt_succ] at h
    split at h
    · rename_i e' hread
      cases h
      exact ⟨p, hp, hread⟩
    · rename_i node hread
      split at h
      · cases h
      · rename_i children hbody
        split at h
        · rename_i e' hchildren
          cases h
          obtain ⟨c, hc, herror⟩ := exists_of_mapM_eq_error hchildren
          have hstep : f.IsChild p c := ⟨node, hread, by rwa [Node.children, hbody]⟩
          -- a page that is above itself would close a loop
          have hnew : p ∉ above := fun hmem => hloop p hp (habove p hmem).2
          refine ih (List.nodup_cons.2 ⟨hnew, hnodup⟩) ?_ (hp.tail hstep) ?_ herror
          · intro a ha
            rcases List.mem_cons.1 ha with rfl | ha
            · exact ⟨isAllocated_of_readPage hread, .single hstep⟩
            · exact ⟨(habove a ha).1, (habove a ha).2.tail hstep⟩
          · rw [List.length_cons]
            omega
        · cases h

/-- The pages that a held tree leads to are those of its nodes. -/
theorem Holds.mem_pages_of_reached {f : PageFile} {t : Tree} (h : f.Holds t) {p : PageId}
    (hp : ReflTransGen f.IsChild t.page p) : p ∈ t.pages := by
  induction hp with
  | refl => exact page_mem_pages t
  | tail _ hstep ih =>
    obtain ⟨s, hs, rfl⟩ := List.mem_map.1 ih
    obtain ⟨n, hread, hmem⟩ := hstep
    rw [h s hs] at hread
    cases hread
    cases s with
    | leaf => cases hmem
    | branch id keys children =>
      obtain ⟨c, hc, rfl⟩ := List.mem_map.1 hmem
      refine List.mem_map.2 ⟨c, mem_subtrees_trans ?_ hs, rfl⟩
      rw [subtrees_branch]
      exact List.mem_cons_of_mem _ (List.mem_flatMap.2 ⟨c, hc, self_mem_subtrees c⟩)

/-- **No page of a held tree leads back to itself.** A tree does not hang below itself. -/
theorem Holds.not_transGen_self {f : PageFile} {t : Tree} (h : f.Holds t) {p : PageId}
    (hp : p ∈ t.pages) : ¬ TransGen f.IsChild p p := by
  intro hcycle
  obtain ⟨s, hs, rfl⟩ := List.mem_map.1 hp
  obtain ⟨c, ⟨n, hn, hc⟩, hback⟩ := TransGen.head'_iff.1 hcycle
  obtain rfl := Except.ok.inj ((h s hs).symm.trans hn)
  cases s with
  | leaf id es next => cases hc
  | branch id keys children =>
    obtain ⟨child, hchild, rfl⟩ := List.mem_map.1 hc
    have hs := h.of_mem_subtrees hs
    have hbelow := (holds_branch_iff.1 hs).2 child hchild
    exact hs.not_mem_pages_of_mem_children hchild (hbelow.mem_pages_of_reached hback)

/-- Following the chain fails only where a page cannot be read. -/
theorem chainFrom_ne_fault (f : PageFile) (leaves left : Nat) (current : PageId)
    (previous : Option Int32) (fault : Fault) :
    f.chainFrom leaves left current previous ≠ .error (.fault fault) := by
  intro h
  -- the walk counts down, so a chain that loops is reported when the count is used up
  induction left generalizing current previous with
  | zero =>
    by_cases hvalid : current.isValid
    · rw [chainFrom_of_isValid hvalid] at h
      cases h
    · rw [chainFrom_of_not_isValid hvalid] at h
      cases h
  | succ left ih =>
    by_cases hvalid : current.isValid
    · rw [chainFrom_of_isValid hvalid] at h
      simp only at h
      split at h
      · rename_i e hread
        cases h
        exact readPage_ne_fault f current fault hread
      · split at h
        · split at h
          · rename_i e hrest
            cases h
            exact ih _ _ hrest
          · cases h
        · cases h
    · rw [chainFrom_of_not_isValid hvalid] at h
      cases h

/-- **An audit comes to an end** where no loop keeps the descent going. -/
theorem verify_ne_fault {f : PageFile} (hpages : 1 ≤ f.pageCount)
    (hloop : ∀ p, ReflTransGen f.IsChild f.root p → ¬ TransGen f.IsChild p p) (fault : Fault) :
    f.verify ≠ .error (.fault fault) := by
  intro h
  rw [verify_eq] at h
  split at h
  · rename_i e htree
    cases h
    unfold tree at htree
    split at htree
    · cases hread : f.treeAt f.pageCount f.root with
      -- the descent can only fail at a page, and reading a page raises no fault
      | error e =>
        rw [hread] at htree
        cases htree
        obtain ⟨q, -, hq⟩ := exists_of_treeAt_eq_error hpages hloop List.nodup_nil
          (fun a ha => absurd ha List.not_mem_nil) .refl (by simp) hread
        exact readPage_ne_fault f q fault hq
      | ok t =>
        rw [hread] at htree
        cases htree
    · cases htree
  · cases h
  · split at h
    · rename_i e hchain
      cases h
      rw [chainViolations.eq_def] at hchain
      split at hchain
      · cases hchain
      · simp only [bind, Except.bind] at hchain
        split at hchain
        · rename_i e hwalk
          cases hchain
          exact chainFrom_ne_fault f _ _ _ _ fault hwalk
        · split at hchain <;> cases hchain
    · simp only at h
      split at h <;> cases h

/-! ## (5) Well-formed files -/

/-- **A file with a well-formed tree**, rule by rule. -/
structure WellFormed (f : PageFile) (t : Tree) : Prop where
  /-- The tree hangs at the root. -/
  page : t.page = f.root
  /-- Every page that the root leads to is allocated and holds the node with its own number. -/
  held : f.Holds t
  /-- All leaves lie at one height below the root. -/
  balanced : ∃ height, Balanced height t
  /-- The nodes keep the rules. -/
  rules : t.KeepsRules
  /-- The chain leads from the leftmost leaf through all leaves in their order, and then ends. -/
  visits : f.Visits (firstId t.leaves .none) (t.leaves.map Leaf.id)
  /-- It meets no leaf twice. -/
  nodup : (t.leaves.map Leaf.id).Nodup

/-- **The well-formed trees are those that a file carries.** -/
theorem wellFormed_iff_carries {f : PageFile} {t : Tree} :
    f.WellFormed t ↔ ∃ height, f.Carries height t := by
  -- where the chain starts does not depend on where it ends: there is a leaf
  have hfirst : ∀ (hheld : f.Holds t) (stop : PageId),
      firstId t.leaves .none = firstId t.leaves stop := by
    intro hheld stop
    obtain ⟨l, ls, hleaves⟩ := List.exists_cons_of_ne_nil hheld.fits.leaves_ne_nil
    rw [hleaves, firstId_cons, firstId_cons]
  constructor
  · intro h
    obtain ⟨height, hbalanced⟩ := h.balanced
    obtain ⟨stop, hstop, -, hlinked⟩ := (visits_iff_linked h.held.leaves).1 h.visits
    have hordered := (ordered_iff_keepsRules h.held.fits).2
      ⟨hbalanced, h.rules, fun s _ key _ => within_none key⟩
    exact ⟨height, h.page, h.held, hordered, stop, hstop, hlinked⟩
  · rintro ⟨height, h⟩
    obtain ⟨stop, hstop, hlinked⟩ := h.linked
    exact ⟨h.page, h.held, ⟨height, h.ordered.balanced⟩, h.ordered.keepsRules h.held.fits,
      (visits_iff_linked h.held.leaves).2 ⟨stop, hstop, hfirst h.held stop, hlinked⟩,
      h.nodup_leaves⟩

/-- **The figures of a tree** in a file with `pages` pages. -/
structure Counts (t : Tree) (pages : Int32) (s : TreeStats) : Prop where
  /-- The depth: one level more than the height of the leaves below the root. -/
  depth : ∃ height, Balanced height t ∧ s.depth = height + 1
  /-- The nodes that are leaves. -/
  leafPages : s.leafPages = t.subtrees.countP fun u => u.node.isLeaf
  /-- The nodes that are not. -/
  internalPages : s.internalPages = t.subtrees.countP fun u => !u.node.isLeaf
  /-- The slots with a text. -/
  liveEntries : s.liveEntries =
    (t.subtrees.flatMap fun u => u.node.values).countP fun v => !v.isTombstone
  /-- The slots without one. -/
  tombstones : s.tombstones =
    (t.subtrees.flatMap fun u => u.node.values).countP fun v => v.isTombstone
  /-- The allocated pages. -/
  pages : s.pages = pages

theorem counts_stats {height : Nat} {lower upper : Option Int32} {t : Tree}
    (h : Ordered height lower upper t) (pages : Int32) : Counts t pages (t.stats pages) where
  depth := ⟨height, h.balanced, h.leftDepth⟩
  leafPages := length_leaves_eq_countP t
  internalPages := branchCount_eq_countP t
  liveEntries := by rw [← slots_eq_flatMap]; rfl
  tombstones := by rw [← slots_eq_flatMap]; rfl
  pages := rfl

/-- **A tree is held under the root** just if every page that the root leads to can be read, given
that nothing leads back to itself. -/
theorem exists_holds_iff {f : PageFile} (hpages : 1 ≤ f.pageCount)
    (hloop : ∀ p, ReflTransGen f.IsChild f.root p → ¬ TransGen f.IsChild p p) :
    (∃ t, t.page = f.root ∧ f.Holds t) ↔
      ∀ p, ReflTransGen f.IsChild f.root p → ∃ n, f.readPage p = .ok n := by
  constructor
  · rintro ⟨t, hpage, hheld⟩ p hp
    rw [← hpage] at hp
    obtain ⟨s, hs, rfl⟩ := List.mem_map.1 (hheld.mem_pages_of_reached hp)
    exact ⟨s.node, hheld s hs⟩
  · intro hread
    cases htree : f.treeAt f.pageCount f.root with
    | ok t => exact ⟨t, holds_of_treeAt htree⟩
    | error e =>
      obtain ⟨q, hq, hfail⟩ := exists_of_treeAt_eq_error hpages hloop List.nodup_nil
        (fun a ha => absurd ha List.not_mem_nil) .refl (by simp) htree
      obtain ⟨n, hn⟩ := hread q hq
      rw [hn] at hfail
      cases hfail

/-- **An audit of a file that can be opened** comes to an end, unless the children of some node lead
back to it. It accepts the file just if there is no root or the tree is well-formed, and gives the
tree's true figures then. -/
theorem verify_of_openImage {host : Host} {path : String} {image : FileImage} {sizing : Sizing}
    {f : PageFile} (hopen : openImage host path image sizing = .ok f)
    (hloop : ∀ p, ReflTransGen f.IsChild f.root p → ¬ TransGen f.IsChild p p) :
    (∀ fault, f.verify ≠ .error (.fault fault)) ∧
    ((∃ s, f.verify = .ok s) ↔ f.root = .none ∨ ∃ t, f.WellFormed t) ∧
    ((∃ t, t.page = f.root ∧ f.Holds t) ↔
      ∀ p, ReflTransGen f.IsChild f.root p → ∃ n, f.readPage p = .ok n) ∧
    (∀ s, f.verify = .ok s →
      (f.root = .none → s = ⟨0, 0, 0, 0, 0, f.record.pages⟩) ∧
        ∀ t, f.WellFormed t → Counts t f.record.pages s) := by
  have hsound := (Metadata.defect?_eq_none_iff f.record).1
    (Metadata.defect?_of_read (openImage_eq_ok_iff.1 hopen).2.2.1)
  have hpages : 1 ≤ f.pageCount := by
    rw [PageFile.pageCount, Metadata.pageCount]
    omega
  have hroot : f.root = .none ↔ ¬ f.root.isValid := by
    constructor
    · intro h
      rw [h]
      decide
    · intro h
      exact hsound.2.resolve_right fun ha => h (Metadata.isValid_of_isAllocated ha)
  refine ⟨verify_ne_fault hpages hloop, ?_, exists_holds_iff hpages hloop, ?_⟩
  · rw [hroot]
    constructor
    · rintro ⟨s, hs⟩
      obtain ⟨hno, -⟩ | ⟨height, t, ht, -⟩ := verify_eq_ok_iff.1 hs
      · exact Or.inl hno
      · exact Or.inr ⟨t, wellFormed_iff_carries.2 ⟨height, ht⟩⟩
    · rintro (hno | ⟨t, ht⟩)
      · exact ⟨_, verify_eq_ok_iff.2 (Or.inl ⟨hno, rfl⟩)⟩
      · obtain ⟨height, hcarries⟩ := wellFormed_iff_carries.1 ht
        exact ⟨_, verify_eq_ok_iff.2 (Or.inr ⟨height, t, hcarries, rfl⟩)⟩
  · intro s hs
    obtain ⟨hno, rfl⟩ | ⟨height, t, ht, rfl⟩ := verify_eq_ok_iff.1 hs
    · refine ⟨fun _ => rfl, fun t ht => absurd ?_ hno⟩
      obtain ⟨height, hcarries⟩ := wellFormed_iff_carries.1 ht
      exact Metadata.isValid_of_isAllocated hcarries.isAllocated_root
    · refine ⟨fun h => absurd (Metadata.isValid_of_isAllocated ht.isAllocated_root) (hroot.1 h),
        fun u hu => ?_⟩
      -- there is one tree only under the root
      rw [hu.held.eq_of_page_eq ht.held (hu.page.trans ht.page.symm)]
      exact counts_stats ht.ordered f.record.pages

/-- The leaves of a tree with the key 5 in all of them. -/
def straddledLeaves : List Leaf :=
  [⟨⟨4⟩, [(3, RowId.ofText "a"), (5, RowId.ofText "b")], ⟨5⟩⟩,
    ⟨⟨5⟩, [(5, RowId.ofText "c")], ⟨6⟩⟩,
    ⟨⟨6⟩, [(5, RowId.ofText "d")], ⟨7⟩⟩,
    ⟨⟨7⟩, [(5, RowId.ofText "e"), (7, RowId.ofText "f")], .none⟩]

/-- The tree above them, with the key 5 for a separator in all its branches. -/
def straddledTree : Tree :=
  let child (l : Leaf) : Tree := .leaf l.id l.entries l.next
  .branch ⟨1⟩ [5]
    [.branch ⟨2⟩ [5] ((straddledLeaves.take 2).map child),
      .branch ⟨3⟩ [5] ((straddledLeaves.drop 2).map child)]

/-- A file with this tree. -/
def straddledFile : PageFile :=
  withNodes ⟨"straddled", FileImage.empty.resize 32768, 32768, ⟨⟨1⟩, 8⟩, .default, default, true⟩
    (straddledTree.subtrees.map Tree.node)

theorem exists_carries_straddledFile : ∃ height, straddledFile.Carries height straddledTree := by
  have hfits : ∀ n ∈ straddledTree.subtrees.map Tree.node, n.defect? = none := by decide
  have hids : ((straddledTree.subtrees.map Tree.node).map Node.id).Nodup := by decide
  obtain ⟨height, hordered⟩ := (violations_leftDepth_eq_nil_iff (t := straddledTree)
    fun s hs => hfits _ (List.mem_map_of_mem hs)).1 (by decide)
  refine ⟨height, rfl, fun s hs => ?_, hordered, .none, by decide, rfl, rfl, rfl, rfl, trivial⟩
  rw [← id_node, straddledFile]
  exact readPage_withNodes hfits (by decide) hids _ (List.mem_map_of_mem hs)

theorem exists_verify_of_openImage_straddledFile :
    ∃ f, openImage default "straddled" straddledFile.flushed.image .default = .ok f ∧
      (∀ p, ReflTransGen f.IsChild f.root p → ¬ TransGen f.IsChild p p) ∧
      ∃ s, f.verify = .ok s ∧ s.leafPages = 4 ∧ s.internalPages = 3 ∧ s.liveEntries = 6 ∧
        s.tombstones = 0 ∧ s.pages = 8 := by
  have hinUse : straddledFile.flushed.InUse :=
    inUse_flushed (by decide) (by decide) (Nat.le_of_eq (FileImage.length_resize _ _).symm)
  have hlength : straddledFile.flushed.image.length = 32768 := FileImage.length_resize _ _
  obtain ⟨f, hopen⟩ : ∃ f, openImage default "straddled" straddledFile.flushed.image .default = .ok f :=
    ⟨_, openImage_image hinUse (by rw [hlength]; decide) "straddled" .default⟩
  obtain ⟨hrecord, hreads⟩ := openImage_flushed_eq_ok hopen
  obtain ⟨height, hstraddled⟩ := exists_carries_straddledFile
  have hcarries := hstraddled.congr hrecord hreads
  have hloop : ∀ p, ReflTransGen f.IsChild f.root p → ¬ TransGen f.IsChild p p := by
    intro p hp
    rw [← hcarries.page] at hp
    exact hcarries.held.not_transGen_self (hcarries.held.mem_pages_of_reached hp)
  have hwellFormed : f.WellFormed straddledTree := wellFormed_iff_carries.2 ⟨height, hcarries⟩
  obtain ⟨-, haccept, -, hfigures⟩ := verify_of_openImage hopen hloop
  obtain ⟨s, hs⟩ := haccept.2 (Or.inr ⟨_, hwellFormed⟩)
  have hcounts := (hfigures s hs).2 straddledTree hwellFormed
  exact ⟨f, hopen, hloop, s, hs, hcounts.leafPages, hcounts.internalPages, hcounts.liveEntries,
    hcounts.tombstones, hcounts.pages.trans (congrArg Metadata.pages hrecord)⟩

end PageFile

end RowIndex
