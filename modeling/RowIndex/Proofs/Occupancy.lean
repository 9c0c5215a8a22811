import RowIndex.Proofs.PageOwners
import Mathlib.Algebra.Group.Action.Defs
import Mathlib.Algebra.Order.BigOperators.Group.List
import Mathlib.Algebra.Order.Ring.Nat

/-! # How full the nodes are

No audit looks at how full the nodes are. They are full enough all the same: a node is split only when
it has all its keys, both halves keep half of them, and no call takes a key away.

* **`Tree.Ample`** — a node has the keys that every node but the root has to have; `Tree.Filled` says so
  of all nodes below the top.
* **`Split.filled`**, `Put.filled` — what a tree grows by keeps its nodes filled.
* **`Filled.pow_le_length_entries`** — a filled tree has exponentially many entries in its height.
* **`Tree.Kept`** — what every step of growth keeps; `Bears.afterCalls` says that runs of calls keep it.
* **`nodes_stay_filled`** — how full the nodes of an index are after any run of calls. -/

namespace RowIndex

namespace Tree

/-! ## (1) Nodes with enough keys -/

/-- **The fewest keys of a node** other than the root. A branch gave one key away when it was split. -/
def fewest : Tree → Nat
  | .leaf .. => Layout.minDegree
  | .branch .. => Layout.minDegree - 1

/-- **A node with enough keys** not to be the root. -/
def Ample (t : Tree) : Prop :=
  t.fewest ≤ t.keys.length

/-- **All nodes below the top have enough keys.** -/
def Filled (t : Tree) : Prop :=
  ∀ s ∈ t.subtrees.tail, s.Ample

theorem filled_leaf (id : PageId) (es : List (Int32 × RowId)) (next : PageId) :
    Filled (.leaf id es next) := by
  intro s hs
  rw [subtrees_leaf] at hs
  cases hs

/-- The nodes below a branch are its children and the nodes below them. -/
theorem filled_branch_iff {id : PageId} {keys : List Int32} {children : List Tree} :
    Filled (.branch id keys children) ↔ ∀ c ∈ children, c.Ample ∧ c.Filled := by
  unfold Filled
  rw [subtrees_branch, List.tail_cons]
  constructor
  · intro h c hc
    refine ⟨h c (List.mem_flatMap.2 ⟨c, hc, self_mem_subtrees c⟩), fun s hs => ?_⟩
    exact h s (List.mem_flatMap.2 ⟨c, hc, List.mem_of_mem_tail hs⟩)
  · intro h s hs
    obtain ⟨c, hc, hs⟩ := List.mem_flatMap.1 hs
    rw [subtrees_eq_cons] at hs
    rcases List.mem_cons.1 hs with rfl | hs
    · exact (h s hc).1
    · exact (h c hc).2 s hs

/-- **A part of a row of children may be replaced.** -/
theorem Filled.replace {id : PageId} {keys keys' : List Int32} {ts us : List Tree} {c : Tree}
    (h : Filled (.branch id keys (ts ++ c :: us))) (vs : List Tree)
    (hvs : c.Ample ∧ c.Filled → ∀ v ∈ vs, v.Ample ∧ v.Filled) :
    Filled (.branch id keys' (ts ++ (vs ++ us))) := by
  rw [filled_branch_iff] at h ⊢
  intro u hu
  rcases List.mem_append.1 hu with hu | hu
  · exact h u (by simp [hu])
  rcases List.mem_append.1 hu with hu | hu
  · exact hvs (h c (by simp)) u hu
  · exact h u (by simp [hu])

/-! ## (2) What keeps the nodes filled -/

namespace Halves

variable {sibling : PageId} {c l r : Tree} {key : Int32} (h : Halves sibling c l key r)

include h

theorem ample_left : l.Ample := by
  cases h with
  | leaf hfront _ =>
    show Layout.minDegree ≤ _
    rw [keys_leaf, List.length_map, hfront]
  | branch hfront _ _ =>
    show Layout.minDegree - 1 ≤ _
    rw [keys_branch, hfront]
    exact Nat.sub_le _ 1

theorem ample_right : r.Ample := by
  cases h with
  | leaf _ hback =>
    show Layout.minDegree ≤ _
    rw [keys_leaf, List.length_map, List.length_cons, hback]
  | branch _ hback _ =>
    show Layout.minDegree - 1 ≤ _
    rw [keys_branch, ← hback, Nat.add_sub_cancel]

/-- **Both halves of a node are ample**, and filled if the node was. -/
theorem filled (hc : c.Filled) : ∀ v ∈ [l, r], v.Ample ∧ v.Filled := by
  have hbelow : ∀ s ∈ c.subtrees.tail, s.Ample := hc
  intro v hv
  rcases List.mem_pair.1 hv with rfl | rfl
  · exact ⟨h.ample_left, fun s hs => (h.of_mem_left (List.mem_of_mem_tail hs)).elim
      (fun heq => heq ▸ h.ample_left) (hbelow s)⟩
  · exact ⟨h.ample_right, fun s hs => (h.of_mem_right (List.mem_of_mem_tail hs)).elim
      (fun heq => heq ▸ h.ample_right) (hbelow s)⟩

end Halves

namespace Split

variable {sibling : PageId} {t t' : Tree} (h : Split sibling t t')

include h

/-- A split takes no key from the top. -/
theorem ample (ht : t.Ample) : t'.Ample := by
  cases h with
  | here =>
    unfold Ample at ht ⊢
    rw [keys_branch, List.length_append] at ht ⊢
    exact Nat.le_trans ht (Nat.add_le_add_left (Nat.le_succ _) _)
  | inside => exact ht

/-- **A split keeps a tree filled.** -/
theorem filled (ht : t.Filled) : t'.Filled := by
  induction h with
  | here hhalves _ => exact ht.replace [_, _] fun hc => hhalves.filled hc.2
  | inside hsplit ih =>
    refine ht.replace [_] fun hc => List.forall_mem_singleton.2 ?_
    exact ⟨hsplit.ample hc.1, ih hc.2⟩

end Split

namespace Put

variable {key : Int32} {value : RowId} {t t' : Tree} (h : Put key value t t')

include h

/-- A put takes no key from the top. -/
theorem ample (ht : t.Ample) : t'.Ample := by
  cases h with
  | leaf =>
    unfold Ample at ht ⊢
    rw [keys_leaf, List.length_map, List.length_append] at ht ⊢
    exact Nat.le_trans ht (Nat.add_le_add_left (Nat.le_succ _) _)
  | branch => exact ht

/-- **A put keeps a tree filled.** -/
theorem filled (ht : t.Filled) : t'.Filled := by
  induction h with
  | leaf => exact filled_leaf _ _ _
  | branch _ _ _ hput ih =>
    refine ht.replace [_] fun hc => List.forall_mem_singleton.2 ?_
    exact ⟨hput.ample hc.1, ih hc.2⟩

end Put

/-- **A new root has ample children**, the halves of the old one. -/
theorem Raised.filled {t t' : Tree} (h : Raised t t') (ht : t.Filled) : t'.Filled := by
  cases h with
  | same => exact ht
  | above hhalves => exact filled_branch_iff.2 (hhalves.filled ht)

/-- Other slots are under the same keys. -/
theorem ample_mapSlots (φ : PageId → RowId → RowId) {t : Tree} (ht : t.Ample) :
    (t.mapSlots φ).Ample := by
  cases t with
  | leaf id es next => simpa [Ample, fewest] using ht
  | branch id keys children => simpa [Ample, fewest] using ht

theorem filled_mapSlots (φ : PageId → RowId → RowId) {t : Tree} (ht : t.Filled) :
    (t.mapSlots φ).Filled := by
  intro s' hs'
  rw [subtrees_mapSlots, ← List.map_tail] at hs'
  obtain ⟨s, hs, rfl⟩ := List.mem_map.1 hs'
  exact ample_mapSlots φ (ht s hs)

/-! ## (3) How many entries a filled tree has -/

/-- **A row of ample trees has many entries**, and an ample tree has as many. -/
theorem Filled.mul_pow_le_length_entries {height : Nat} {id : PageId} {keys : List Int32}
    {children : List Tree} (h : Filled (.branch id keys children))
    (hfits : (branch id keys children).Fits) (hbalanced : Balanced (height + 1) (.branch id keys children))
    (hbelow : ∀ c ∈ children, c.Fits → Balanced height c → c.Ample → c.Filled →
      Layout.minDegree ^ (height + 1) ≤ c.entries.length) :
    (keys.length + 1) * Layout.minDegree ^ (height + 1)
      ≤ (branch id keys children).entries.length := by
  have heach : ∀ n ∈ children.map fun c => c.entries.length,
      Layout.minDegree ^ (height + 1) ≤ n := by
    intro n hn
    obtain ⟨c, hc, rfl⟩ := List.mem_map.1 hn
    obtain ⟨hample, hfilled⟩ := filled_branch_iff.1 h c hc
    exact hbelow c hc (hfits.of_mem_children hc) (hbalanced c hc) hample hfilled
  have hsum := List.card_nsmul_le_sum _ _ heach
  rwa [List.length_map, hfits.length_children, smul_eq_mul, ← List.length_flatMap,
    ← entries_branch id keys] at hsum

/-- **An ample tree that is filled has exponentially many entries in its height.** -/
theorem Filled.pow_le_length_entries {height : Nat} {t : Tree} (h : t.Filled) (hfits : t.Fits)
    (hbalanced : Balanced height t) (hample : t.Ample) :
    Layout.minDegree ^ (height + 1) ≤ t.entries.length := by
  induction t generalizing height with
  | leaf id es next =>
    cases height with
    | zero =>
      have hlen : Layout.minDegree ≤ (es.map (·.1)).length := hample
      rwa [List.length_map, ← entries_leaf id es next, ← Nat.pow_one Layout.minDegree] at hlen
    | succ height => exact hbalanced.elim
  | branch id keys children ih =>
    cases height with
    | zero => exact hbalanced.elim
    | succ height =>
      have hmany := h.mul_pow_le_length_entries hfits hbalanced
        fun c hc hfits hbalanced hample hfilled => ih c hc hfilled hfits hbalanced hample
      have hkeys : Layout.minDegree ≤ keys.length + 1 := Nat.sub_le_iff_le_add.1 hample
      calc Layout.minDegree ^ (height + 1 + 1)
          = Layout.minDegree * Layout.minDegree ^ (height + 1) := Nat.pow_succ'
        _ ≤ (keys.length + 1) * Layout.minDegree ^ (height + 1) := Nat.mul_le_mul_right _ hkeys
        _ ≤ _ := hmany

/-- **A root with children has two of them at least.** -/
theorem Filled.two_mul_pow_le_length_entries {height : Nat} {t : Tree} (h : t.Filled)
    (hfits : t.Fits) (hordered : Ordered (height + 1) none none t) :
    2 * Layout.minDegree ^ (height + 1) ≤ t.entries.length := by
  match t, hordered with
  | .branch id keys children, hordered =>
    have hmany := h.mul_pow_le_length_entries hfits hordered.balanced
      fun c _ hfits hbalanced hample hfilled => hfilled.pow_le_length_entries hfits hbalanced hample
    have hkeys := List.length_pos_of_ne_nil (ordered_branch_iff.1 hordered).1
    exact Nat.le_trans (Nat.mul_le_mul_right _ (Nat.succ_le_succ hkeys)) hmany

/-- **Every path to a leaf is as long as the tree is high.** -/
theorem Balanced.length_of_along {path : List Nat} {height : Nat} {s t : Tree}
    (h : Balanced height t) (hpath : along path t = some s) (hleaf : s.node.isLeaf) :
    path.length = height := by
  induction path generalizing height t with
  | nil =>
    obtain rfl := Option.some.inj ((along_nil t).symm.trans hpath)
    match height, t, h with
    | 0, .leaf .., _ => rfl
    | height + 1, .branch .., _ => cases hleaf
  | cons i path ih =>
    match height, t, h with
    | 0, .leaf .., _ =>
      rw [along_leaf] at hpath
      cases hpath
    | height + 1, .branch id keys children, h =>
      obtain ⟨c, hc, hs⟩ := along_branch_eq_some_iff.1 hpath
      rw [List.length_cons, ih (h c (List.mem_of_getElem? hc)) hs]

/-! ## (4) What growth keeps -/

/-- **A property of trees that every step of growth keeps**, and that holds where a tree starts. -/
structure Kept (P : Tree → Prop) : Prop where
  /-- A tree starts as a leaf with one entry. -/
  lone : ∀ id key value, P (leaf id [(key, value)] .none)
  /-- A full root is split below a new one. -/
  raised : ∀ {t t'}, Raised t t' → P t → P t'
  /-- A full node is split. -/
  split : ∀ {sibling t t'}, Split sibling t t' → P t → P t'
  /-- An entry is put into a leaf. -/
  put : ∀ {key value t t'}, Put key value t t' → P t → P t'
  /-- Slots are cleared. -/
  mapSlots : ∀ φ {t}, P t → P (t.mapSlots φ)

/-- **Growth keeps a tree filled.** -/
theorem kept_filled : Kept Filled where
  lone _ _ _ := filled_leaf _ _ _
  raised h ht := h.filled ht
  split h ht := h.filled ht
  put h ht := h.filled ht
  mapSlots φ _ ht := filled_mapSlots φ ht

end Tree

namespace PageFile

open RowIndex.Tree

/-- **The file carries a tree with a property**, if it carries one. -/
inductive Bears (P : Tree → Prop) (f : PageFile) : Prop
  /-- There is no tree. -/
  | nothing : ¬ f.root.isValid → Bears P f
  /-- There is a tree, and it has the property. -/
  | tree {height : Nat} {t : Tree} : f.Carries height t → P t → Bears P f

namespace Bears

variable {P : Tree → Prop} {f g : PageFile}

theorem congr (h : Bears P f) (hrecord : g.record = f.record)
    (hread : ∀ p, g.readPage p = f.readPage p) : Bears P g := by
  cases h with
  | nothing hroot => exact .nothing (by rwa [root, hrecord])
  | tree hcarries ht => exact .tree (hcarries.congr hrecord hread) ht

theorem create {host : Host} {path : String} {sizing : Sizing}
    (h : create host path sizing = .ok f) : Bears P f := by
  obtain ⟨-, rfl⟩ := create_eq_ok_iff.1 h
  exact .nothing (of_decide_eq_true rfl)

/-- What an insertion below the root makes of the tree. -/
theorem of_insertedBelow (hkept : Kept P) {height : Nat} {t : Tree} (hcarries : f.Carries height t)
    (ht : P t) {key : Int32} {value : RowId} {outcome : Except Failure Unit × PageFile}
    (h : InsertedBelow key value f t outcome) : Bears P outcome.2 := by
  cases h with
  | done hsplits hput hgrown =>
    exact .tree (hcarries.of_put hsplits hput hgrown).1
      (hkept.put hput (hsplits.keeps (fun _ _ _ => hkept.split) ht))
  | refused _ hsplits hgrown =>
    exact .tree (hcarries.of_grown hgrown hsplits.page (hsplits.ordered hcarries.ordered)
      fun _ hlinked => hsplits.linked hlinked) (hsplits.keeps (fun _ _ _ => hkept.split) ht)

/-- **An insertion keeps the property**, whether it succeeds or not. -/
theorem insertValue (hkept : Kept P) (h : Bears P f) (key : Int32) (value : RowId) :
    Bears P ((PageFile.insertValue key value).runOn f).2 := by
  cases h with
  | nothing hroot =>
    rcases insertValue_unrooted_cases hroot key value with
      ⟨failure, g, hrun, hrefused⟩ | ⟨g, hrun, hcarries, -⟩ | ⟨-, failure, g, hrun, hsame⟩
    all_goals rw [hrun]
    · exact .nothing (by rwa [root, hrefused.record])
    · exact .tree hcarries (hkept.lone _ _ _)
    · exact .nothing (by rwa [hsame])
  | tree hcarries ht =>
    have hattempt := hcarries.attempt key value
    generalize (PageFile.insertValue key value).runOn f = outcome at hattempt ⊢
    cases hattempt with
    | refused hrefused => exact .tree (hcarries.congr hrefused.record hrefused.read) ht
    | halfway _ hallocated hrefused =>
      exact .tree ((hcarries.allocated hallocated).congr hrefused.record hrefused.read) ht
    | below hk hraised _ hbelow => exact of_insertedBelow hkept hk (hkept.raised hraised ht) hbelow

/-- **A deletion keeps the property**, whether it succeeds or not. -/
theorem deleteValues (hkept : Kept P) (h : Bears P f) (texts : List String) :
    Bears P ((PageFile.deleteValues texts).runOn f).2 := by
  cases h with
  | nothing hroot =>
    exact .nothing (by rwa [root, (deleteValues_cases texts f).1.record])
  | tree hcarries ht =>
    obtain ⟨touched, hcarries'⟩ := hcarries.touched texts
    exact .tree hcarries' (hkept.mapSlots _ ht)

/-- **A call keeps the property**, whatever its outcome. -/
theorem call (hkept : Kept P) (h : Bears P f) (hinUse : f.InUse) (c : Call) :
    Bears P (f.call c).2 := by
  cases c with
  | insert key text => exact h.insertValue hkept key (RowId.ofText text)
  | deleteValues texts => exact h.deleteValues hkept texts
  | save =>
    rw [PageFile.call, runOn_flush]
    split
    · exact h.congr (record_flushed f) (readPage_flushed f)
    · exact h.congr (record_storeRecord f) (readPage_storeRecord f)
  | reopen saved sizing =>
    rw [PageFile.call]
    split
    · rename_i g hopen
      obtain ⟨hrecord, hread⟩ := hinUse.openImage_leftBehind hopen
      exact h.congr hrecord hread
    · exact h.congr (record_leftBehind f saved) (readPage_leftBehind f saved)

/-- **A run of calls keeps what every step of growth keeps.** -/
theorem afterCalls (hkept : Kept P) (h : Bears P f) (hinUse : f.InUse) (calls : List Call) :
    Bears P (f.afterCalls calls) := by
  induction calls generalizing f with
  | nil => exact h
  | cons c calls ih => exact ih (h.call hkept hinUse c) (hinUse.call c)

end Bears

/-! ## (5) The nodes of an index -/

/-- **A tree whose nodes are full enough**: what the file has on its pages, how long the paths to its
leaves are, and how many entries the statistics count. -/
structure Occupied (f : PageFile) (s : TreeStats) : Prop where
  /-- The nodes of the tree, the root apart, have half the keys that fit, or one less. -/
  nodes : ∀ p, f.InTree p → ∃ n, f.readPage p = .ok n ∧ n.keys.length ≤ Layout.maxKeys ∧
    (n.isLeaf → p ≠ f.root → Layout.minDegree ≤ n.keys.length) ∧
    (¬ n.isLeaf → p ≠ f.root → Layout.minDegree - 1 ≤ n.keys.length) ∧
    (¬ n.isLeaf → 1 ≤ n.keys.length)
  /-- All leaves lie at one depth. -/
  balanced : ∀ places p n, f.pageAlong places f.root = some p → f.readPage p = .ok n → n.isLeaf →
    places.length + 1 = s.depth
  /-- The entries are exponentially many in the depth. -/
  entries : 2 ≤ s.depth → 2 * Layout.minDegree ^ (s.depth - 1) ≤ s.liveEntries + s.tombstones

/-- How full the nodes of a carried tree are. -/
theorem Carries.occupied {f : PageFile} {height : Nat} {t : Tree} (h : f.Carries height t)
    (hfilled : t.Filled) : f.Occupied (t.stats f.record.pages) where
  nodes p hp := by
    obtain ⟨s, hs, rfl⟩ := List.mem_map.1 ((h.inTree_iff p).1 hp)
    have hread := h.held s hs
    have hfits := (Node.defect?_eq_none_iff _).1 (defect?_of_readPage hread)
    -- only the node at the top lies on the page of the root
    have hample : s.page ≠ f.root → s.Ample := by
      intro hne
      rw [subtrees_eq_cons] at hs
      rcases List.mem_cons.1 hs with rfl | hs
      · exact absurd h.page hne
      · exact hfilled s hs
    refine ⟨_, hread, hfits.1, ?_, ?_, ?_⟩
    all_goals
      rw [keys_node]
      intro hkind
    · intro hne
      match s, hkind, hample hne with
      | .leaf .., _, hkeys => exact hkeys
    · intro hne
      match s, hkind, hample hne with
      | .leaf .., hkind, _ => exact absurd rfl hkind
      | .branch .., _, hkeys => exact hkeys
    · obtain ⟨height, lower, upper, hordered⟩ := h.ordered.of_mem_subtrees hs
      match s, height, hkind, hordered with
      | .leaf .., _, hkind, _ => exact absurd rfl hkind
      | .branch .., height + 1, _, hordered =>
        exact List.length_pos_of_ne_nil (ordered_branch_iff.1 hordered).1
  balanced places p n hplaces hread hleaf := by
    rw [← h.page, h.held.pageAlong] at hplaces
    obtain ⟨s, hs, rfl⟩ := Option.map_eq_some_iff.1 hplaces
    obtain rfl := Except.ok.inj (hread.symm.trans (h.held s (mem_subtrees_of_along hs)))
    show places.length + 1 = t.leftDepth
    rw [h.ordered.balanced.length_of_along hs hleaf, h.ordered.leftDepth]
  entries hdepth := by
    rw [(counts_of_stats t f.record.pages).2.2]
    have hleft : (t.stats f.record.pages).depth = height + 1 := h.ordered.leftDepth
    rw [hleft] at hdepth ⊢
    obtain ⟨below, rfl⟩ := Nat.exists_eq_add_of_le' (Nat.le_of_succ_le_succ hdepth)
    exact hfilled.two_mul_pow_le_length_entries h.held.fits h.ordered

/-- A file without a root has no nodes. -/
theorem occupied_of_not_isValid {f : PageFile} (hroot : ¬ f.root.isValid) :
    f.Occupied (TreeStats.ofEmpty f.record.pages) where
  nodes p hp := absurd hp (not_inTree_of_not_isValid hroot p)
  balanced places p n hplaces hread _ := by
    have hnone : ∀ n, f.readPage f.root ≠ .ok n := fun n hn =>
      hroot (Metadata.isValid_of_isAllocated (isAllocated_of_readPage hn))
    cases places with
    | nil =>
      obtain rfl : f.root = p := Option.some.inj hplaces
      exact absurd hread (hnone n)
    | cons i places =>
      rw [pageAlong] at hplaces
      split at hplaces
      · cases hplaces
      · rename_i node hnode
        exact absurd hnode (hnone node)
  entries hdepth := by cases hdepth

/-- **The tree stays balanced and full enough.** After any run of calls on a new index, whatever becomes
of each, the statistics can be read, and of the nodes of the tree none has more than
`Layout.maxKeys = 112` keys, every leaf but the root has at least `Layout.minDegree = 56`, every internal
node but the root at least one less, and an internal root has a key. All leaves lie at the depth that
the statistics give, so that a tree of depth `d`, from 2 on, has at least `2 * 56 ^ (d - 1)` entries,
live or not. -/
theorem nodes_stay_filled {host : Host} {path : String} {sizing : Sizing} {f : PageFile}
    (hcreate : create host path sizing = .ok f) (calls : List Call) :
    ∃ s, (f.afterCalls calls).stats = .ok s ∧ (f.afterCalls calls).Occupied s := by
  have hborne : Bears Filled (f.afterCalls calls) :=
    (Bears.create hcreate).afterCalls kept_filled (inUse_create hcreate) calls
  cases hborne with
  | nothing hroot =>
    exact ⟨_, stats_of_verify (verify_eq_ok_iff.2 (Or.inl ⟨hroot, rfl⟩)),
      occupied_of_not_isValid hroot⟩
  | tree hcarries hfilled =>
    exact ⟨_, stats_of_verify (verify_eq_ok_iff.2 (Or.inr ⟨_, _, hcarries, rfl⟩)),
      hcarries.occupied hfilled⟩

theorem nodes_stay_filled_newFile :
    create default "new" .default = .ok newFile ∧
      ∃ s, (newFile.afterCalls (List.replicate 200 (.insert 7 "seven"))).stats = .ok s ∧
        (newFile.afterCalls (List.replicate 200 (.insert 7 "seven"))).Occupied s :=
  ⟨create_newFile, nodes_stay_filled create_newFile _⟩

end PageFile

end RowIndex
