import RowIndex.Proofs.Audits

/-! # Lookups in an audited file

A lookup descends to one leaf and scans the chain from there up to the first key past the wanted
ones. In a file that an audit accepts it misses nothing.

* **`descend_of_ordered`** — a descent splits the leaves: the keys before the leaf that it reaches
  satisfy the route's condition, those behind that leaf do not.
* **`Carries.chain_eq`**, `Carries.range_eq`, `Carries.search_eq` — what the reads give, from the
  entries of the tree.
* **`PageFile.Lists`** — an audit accepts the file, and the chain gives these entries.
* **`reads_of_verify`** — the reads of an audited file are exact. -/

namespace RowIndex

/-! ## (1) Routes -/

/-- **A condition that holds of every key below one that satisfies it.** -/
def Downward (p : Int32 → Bool) : Prop :=
  ∀ a b : Int32, a ≤ b → p b → p a

theorem downward_lt (key : Int32) : Downward (· < key) := by
  intro a b hab hb
  simp only [decide_eq_true_eq, Int32.lt_iff_toInt_lt, Int32.le_iff_toInt_le] at *
  omega

theorem downward_le (key : Int32) : Downward (· ≤ key) := by
  intro a b hab hb
  simp only [decide_eq_true_eq] at *
  exact Int32.le_trans hab hb

theorem downward_false : Downward fun _ => false :=
  fun _ _ _ h => h

/-- Behind the first ascending key that does not satisfy the condition, no key does. -/
theorem not_of_mem_dropWhile {p : Int32 → Bool} (hp : Downward p) {keys : List Int32}
    (hsorted : keys.Pairwise (· ≤ ·)) :
    ∀ k ∈ keys.dropWhile p, ¬ p k := by
  induction keys with
  | nil => simp
  | cons key keys ih =>
    obtain ⟨hle, hrest⟩ := List.pairwise_cons.1 hsorted
    rw [List.dropWhile_cons]
    split
    · exact ih hrest
    · rename_i hkey
      intro k hk
      rcases List.mem_cons.1 hk with rfl | hk
      · exact hkey
      · exact fun hpk => hkey (hp key k (hle k hk) hpk)

/-- The first child is the one left of all separators. -/
theorem leftmost_eq_frontCount : Route.leftmost = frontCount fun _ => false := by
  funext keys
  cases keys <;> rfl

namespace Tree

/-- **Where a route leaves an ordered branch**: all keys in the subtrees to the left satisfy the
condition, none in the subtrees to the right does. -/
theorem Ordered.route {p : Int32 → Bool} (hp : Downward p) {height : Nat}
    {lower upper : Option Int32} {id : PageId} {keys : List Int32} {children : List Tree}
    (h : Ordered (height + 1) lower upper (.branch id keys children)) :
    ∃ ts c us, children = ts ++ c :: us ∧ ts.length = frontCount p keys ∧
      Ordered height (gapLower lower (keys.takeWhile p)) (gapUpper upper (keys.dropWhile p)) c ∧
      (∀ t ∈ ts, ∀ e ∈ t.entries, p e.1) ∧ (∀ u ∈ us, ∀ e ∈ u.entries, ¬ p e.1) := by
  obtain ⟨-, hkeys, hrow⟩ := ordered_branch_iff.1 h
  have hi : frontCount p keys < children.length := by
    rw [hrow.length_eq]
    exact Nat.lt_succ_of_le (frontCount_le p keys)
  obtain ⟨ts, c, us, rfl, hlen⟩ := exists_append_cons children hi
  -- the route cuts the separators where they stop to satisfy the condition
  rw [← List.takeWhile_append_dropWhile (p := p) (l := keys)] at hrow
  obtain ⟨hleft, hright⟩ := hrow.sides hlen
  refine ⟨ts, c, us, rfl, hlen, (hrow.focus hlen).1, fun t ht e he => ?_, fun u hu e he hpe => ?_⟩
  · obtain ⟨k, hk, hle⟩ := hleft t ht e he
    exact hp _ _ hle (List.mem_takeWhile_imp hk)
  · obtain ⟨k, hk, hle⟩ := hright u hu e he
    exact not_of_mem_dropWhile hp hkeys.sorted k hk (hp _ _ hle hpe)

end Tree

namespace PageFile

open RowIndex.Tree

/-! ## (2) Descents -/

/-- A child is found at its place. -/
theorem childAt_map_page (ts us : List Tree) (c : Tree) :
    childAt ((ts ++ c :: us).map page) ts.length = .ok c.page := by
  simp [childAt]

/-- A descent, level by level. -/
theorem descend_branch (f : PageFile) (route : Route) (fuel : Nat) (id : PageId)
    (keys : List Int32) (children : List Tree) :
    f.descend route (fuel + 1) (branch id keys children).node =
      match childAt (children.map page) (route keys) with
      | .error e => .error e
      | .ok child =>
        match f.readPage child with
        | .error e => .error e
        | .ok node => f.descend route fuel node := by
  rw [descend.eq_def]
  simp only [node, Node.children, bind, Except.bind]
  cases childAt (children.map page) (route keys) with
  | error e => rfl
  | ok child =>
    simp only
    cases f.readPage child <;> rfl

/-- **A descent splits the leaves** of an ordered tree: the keys before the leaf that it reaches
satisfy the route's condition, and those behind that leaf do not. -/
theorem descend_of_ordered {f : PageFile} {p : Int32 → Bool} (hp : Downward p) {t : Tree}
    (hheld : f.Holds t) {height : Nat} {lower upper : Option Int32}
    (hordered : Ordered height lower upper t) {fuel : Nat} (hfuel : height ≤ fuel) :
    ∃ before l after, f.descend (frontCount p) fuel t.node = .ok l.node ∧
      t.leaves = before ++ l :: after ∧ (∀ e ∈ before.flatMap Leaf.entries, p e.1) ∧
      ∀ e ∈ after.flatMap Leaf.entries, ¬ p e.1 := by
  induction height generalizing t lower upper fuel with
  | zero =>
    cases t with
    | branch id keys children => exact False.elim hordered
    | leaf id es next =>
      refine ⟨[], ⟨id, es, next⟩, [], ?_, by simp, by simp, by simp⟩
      rw [descend.eq_def]
      rfl
  | succ height ih =>
    cases t with
    | leaf id es next => exact False.elim hordered
    | branch id keys children =>
      obtain ⟨fuel, rfl⟩ : ∃ n, fuel = n + 1 := ⟨fuel - 1, by omega⟩
      obtain ⟨ts, c, us, rfl, hlen, hc, hts, hus⟩ := hordered.route hp
      have hheldc := (holds_branch_iff.1 hheld).2 c (by simp)
      obtain ⟨before, l, after, hrun, hleaves, hbefore, hafter⟩ :=
        ih hheldc hc (Nat.le_of_succ_le_succ hfuel)
      -- the subtrees on both sides lie as a whole before and behind the leaf
      refine ⟨ts.flatMap leaves ++ before, l, after ++ us.flatMap leaves, ?_, ?_, ?_, ?_⟩
      · rw [descend_branch, ← hlen, childAt_map_page]
        simp only [hheldc.readPage]
        exact hrun
      · simp [hleaves]
      · intro e he
        rw [List.flatMap_append, List.mem_append, List.flatMap_assoc] at he
        rcases he with he | he
        · obtain ⟨t, ht, he⟩ := List.mem_flatMap.1 he
          exact hts t ht e he
        · exact hbefore e he
      · intro e he
        rw [List.flatMap_append, List.mem_append, List.flatMap_assoc] at he
        rcases he with he | he
        · exact hafter e he
        · obtain ⟨u, hu, he⟩ := List.mem_flatMap.1 he
          exact hus u hu e he

namespace Carries

variable {f : PageFile} {height : Nat} {t : Tree}

/-- A tree is not higher than it has nodes. -/
theorem height_lt (h : f.Carries height t) : height < f.pageCount := by
  have hnodes := h.ordered.height_lt
  have hpages := h.length_subtrees_le
  omega

/-- **A descent from the root** reaches a leaf that the chain goes on from. -/
theorem leafBy_eq (h : f.Carries height t) {p : Int32 → Bool} (hp : Downward p) :
    ∃ before l after, f.leafBy (frontCount p) = .ok (some l.node) ∧
      t.leaves = before ++ l :: after ∧ (∀ e ∈ before.flatMap Leaf.entries, p e.1) ∧
      ∀ e ∈ after.flatMap Leaf.entries, ¬ p e.1 := by
  obtain ⟨before, l, after, hrun, hsplit⟩ :=
    descend_of_ordered hp h.held h.ordered (Nat.le_of_lt h.height_lt)
  refine ⟨before, l, after, ?_, hsplit⟩
  have hread := h.held.readPage
  rw [h.page] at hread
  rw [leafBy, if_pos (Metadata.isValid_of_isAllocated h.isAllocated_root), hread]
  simp only [bind, Except.bind, hrun]
  rfl

/-- **A scan from a leaf on** gives the entries from there up to the first key to stop at. -/
theorem chainUntil_eq (h : f.Carries height t) {before after : List Leaf} {l : Leaf}
    (hsplit : t.leaves = before ++ l :: after) (stopAt : Int32 → Bool) :
    f.chainUntil stopAt f.pageCount l.node =
      .ok (((l :: after).flatMap Leaf.entries).takeWhile fun entry => !stopAt entry.1) := by
  obtain ⟨stop, hstop, hlinked⟩ := h.linked
  rw [hsplit] at hlinked
  have hheld : f.HoldsLeaves after := by
    intro m hm
    apply h.held.leaves
    rw [hsplit]
    exact List.mem_append_right _ (List.mem_cons_of_mem _ hm)
  -- there is fuel for all leaves, since no page is met twice
  have hlen : after.length ≤ f.pageCount := by
    have hle := length_le_of_nodup h.nodup_leaves fun p hp => by
      obtain ⟨m, hm, rfl⟩ := List.mem_map.1 hp
      exact isAllocated_of_readPage (h.held.leaves m hm)
    rw [hsplit, List.length_map, List.length_append, List.length_cons] at hle
    omega
  exact chainUntil_of_linked hheld hstop (linked_append.1 hlinked).2 hlen

end Carries

/-! ## (3) Reads -/

/-- In ascending keys, the keys up to a bound come first. -/
theorem takeWhile_eq_filter {F : List (Int32 × RowId)} (h : (F.map (·.1)).Pairwise (· ≤ ·))
    {p : Int32 → Bool} (hp : Downward p) :
    F.takeWhile (fun e => p e.1) = F.filter fun e => p e.1 := by
  induction F with
  | nil => rfl
  | cons e F ih =>
    obtain ⟨hle, hrest⟩ := List.pairwise_cons.1 h
    rw [List.takeWhile_cons, List.filter_cons, ih hrest]
    split
    · rfl
    · rename_i he
      symm
      rw [List.filter_eq_nil_iff]
      intro d hd hpd
      exact he (hp e.1 d.1 (hle d.1 (List.mem_map.2 ⟨d, hd, rfl⟩)) hpd)

/-- **The pairs of keys and slots in the leaves**, from left to right as a descent from the root
reaches them; none in a file without a root. -/
def pairs (f : PageFile) : Except Failure (List (Int32 × RowId)) := do
  match ← f.tree with
  | none => return []
  | some t => return t.entries

theorem pairs_of_not_isValid {f : PageFile} (hroot : ¬ f.root.isValid) : f.pairs = .ok [] := by
  rw [pairs, tree, if_neg hroot]
  rfl

theorem leafBy_of_not_isValid {f : PageFile} (hroot : ¬ f.root.isValid) (route : Route) :
    f.leafBy route = .ok none := by
  rw [leafBy, if_neg hroot]

/-- Nothing is read from a file without a root. -/
theorem chain_of_not_isValid {f : PageFile} (hroot : ¬ f.root.isValid) : f.chain = .ok [] := by
  rw [chain, leftmostLeaf, leafBy_of_not_isValid hroot]
  rfl

theorem range_of_not_isValid {f : PageFile} (hroot : ¬ f.root.isValid) (low high : Int32) :
    f.range low high = .ok [] := by
  rw [range, leafBy_of_not_isValid hroot]
  split <;> rfl

theorem search_of_not_isValid {f : PageFile} (hroot : ¬ f.root.isValid) (key : Int32) :
    f.search key = .ok [] := by
  rw [search, leafBy_of_not_isValid hroot]
  rfl

namespace Carries

variable {f : PageFile} {height : Nat} {t : Tree}

theorem pairs_eq (h : f.Carries height t) : f.pairs = .ok t.entries := by
  rw [pairs, h.tree_eq]
  rfl

/-- **The chain gives the entries of the tree.** -/
theorem chain_eq (h : f.Carries height t) : f.chain = .ok t.entries := by
  obtain ⟨before, l, after, hleaf, hsplit, hbefore, -⟩ := h.leafBy_eq downward_false
  -- no key satisfies the condition of the leftmost route, so nothing lies before the leaf
  have hnone : before.flatMap Leaf.entries = [] :=
    List.eq_nil_iff_forall_not_mem.2 fun e he => Bool.false_ne_true (hbefore e he)
  have hall : t.entries = (l :: after).flatMap Leaf.entries := by
    rw [Tree.entries, hsplit, List.flatMap_append, hnone, List.nil_append]
  rw [chain, leftmostLeaf, leftmost_eq_frontCount, hleaf]
  simp only [bind, Except.bind]
  rw [h.chainUntil_eq hsplit, hall]
  simp

/-- **A scan for the keys up to `high`** from the leaf for `low` on meets all entries with keys
between the two, and no key above `high`. -/
theorem scan_eq (h : f.Carries height t) (low high : Int32) :
    ∃ leaf found, f.leafBy (Route.lookup low) = .ok (some leaf) ∧
      f.chainUntil (high < ·) f.pageCount leaf = .ok found ∧
      ∀ wanted : Int32 × RowId → Bool, (∀ e, wanted e → low ≤ e.1) →
        found.filter wanted = t.entries.filter fun e => e.1 ≤ high && wanted e := by
  obtain ⟨before, l, after, hleaf, hsplit, hbefore, -⟩ := h.leafBy_eq (downward_lt low)
  refine ⟨l.node, _, hleaf, h.chainUntil_eq hsplit _, fun wanted hwanted => ?_⟩
  have hall : t.entries = before.flatMap Leaf.entries ++ (l :: after).flatMap Leaf.entries := by
    rw [Tree.entries, hsplit, List.flatMap_append]
  have hsorted : (((l :: after).flatMap Leaf.entries).map (·.1)).Pairwise (· ≤ ·) := by
    have hkeys := h.ordered.keysFit_entries.sorted
    rw [hall, List.map_append] at hkeys
    exact (List.pairwise_append.1 hkeys).2.1
  -- up to the first key above `high` is as long as keys are not above it
  have hstop : (fun e : Int32 × RowId => !decide (high < e.1)) = fun e => decide (e.1 ≤ high) := by
    funext e
    rw [← decide_not]
    exact decide_eq_decide.2 Int32.not_lt
  -- nothing wanted is left behind before the leaf
  have hskipped : (before.flatMap Leaf.entries).filter (fun e => e.1 ≤ high && wanted e) = [] := by
    rw [List.filter_eq_nil_iff]
    intro e he hwants
    have hlow := hwanted e (Bool.and_eq_true_iff.1 hwants).2
    exact Int32.not_lt.2 hlow (of_decide_eq_true (hbefore e he))
  rw [hall, List.filter_append, hskipped, List.nil_append, hstop,
    takeWhile_eq_filter hsorted (downward_le high), List.filter_filter]
  exact List.filter_congr fun e _ => Bool.and_comm _ _

/-- **The range from `low` to `high`**, read off the entries of the tree. -/
theorem range_eq (h : f.Carries height t) (low high : Int32) :
    f.range low high =
      .ok ((t.entries.filter fun e => low ≤ e.1 && e.1 ≤ high && isLive e).map shown) := by
  unfold range
  split
  · rename_i hempty
    -- no key lies in an empty range
    have hnone : t.entries.filter (fun e => low ≤ e.1 && e.1 ≤ high && isLive e) = [] := by
      rw [List.filter_eq_nil_iff]
      intro e _ hwants
      rw [Bool.and_eq_true, Bool.and_eq_true, decide_eq_true_iff, decide_eq_true_iff] at hwants
      exact Int32.not_lt.2 (Int32.le_trans hwants.1.1 hwants.1.2) hempty
    rw [hnone]
    rfl
  · obtain ⟨leaf, found, hleaf, hfound, hfilter⟩ := h.scan_eq low high
    rw [hleaf]
    simp only [bind, Except.bind, hfound]
    rw [hfilter _ fun e he => of_decide_eq_true (Bool.and_eq_true_iff.1 he).1]
    refine congrArg (fun F => Except.ok (List.map shown F)) (List.filter_congr fun e _ => ?_)
    rw [← Bool.and_assoc, Bool.and_comm (decide (e.1 ≤ high))]

/-- **The texts under `key`**, read off the entries of the tree. -/
theorem search_eq (h : f.Carries height t) (key : Int32) :
    f.search key =
      .ok ((t.entries.filter fun e => e.1 == key && isLive e).map fun e => e.2.text) := by
  obtain ⟨leaf, found, hleaf, hfound, hfilter⟩ := h.scan_eq key key
  rw [search, hleaf]
  simp only [bind, Except.bind, hfound]
  have hfound : found.filter (fun e => e.1 == key && isLive e)
      = t.entries.filter fun e => e.1 == key && isLive e := by
    rw [hfilter _ fun e he => Int32.le_of_eq (beq_iff_eq.1 (Bool.and_eq_true_iff.1 he).1).symm]
    refine List.filter_congr fun e _ => ?_
    by_cases hkey : e.1 = key <;> simp [hkey]
  rw [hfound]
  rfl

end Carries

/-- **What a file lists**: an audit accepts the file, and the leaf chain gives these entries. -/
inductive Lists (f : PageFile) : List (Int32 × RowId) → Prop
  /-- Nothing, without a root. -/
  | nothing : ¬ f.root.isValid → Lists f []
  /-- The entries of the tree that the file carries. -/
  | tree {height : Nat} {t : Tree} : f.Carries height t → Lists f t.entries

/-- **The files that an audit accepts** are those that list something. -/
theorem exists_lists_iff {f : PageFile} : (∃ L, f.Lists L) ↔ ∃ s, f.verify = .ok s := by
  constructor
  · rintro ⟨L, hroot | hcarries⟩
    · exact ⟨_, verify_eq_ok_iff.2 (Or.inl ⟨hroot, rfl⟩)⟩
    · exact ⟨_, verify_eq_ok_iff.2 (Or.inr ⟨_, _, hcarries, rfl⟩)⟩
  · rintro ⟨s, h⟩
    obtain ⟨hroot, -⟩ | ⟨height, t, hcarries, -⟩ := verify_eq_ok_iff.1 h
    · exact ⟨[], .nothing hroot⟩
    · exact ⟨t.entries, .tree hcarries⟩

namespace Lists

variable {f g : PageFile} {L : List (Int32 × RowId)}

/-- The chain gives what the file lists. -/
theorem chain_eq (h : f.Lists L) : f.chain = .ok L := by
  cases h with
  | nothing hroot => exact chain_of_not_isValid hroot
  | tree hcarries => exact hcarries.chain_eq

/-- A search gives the texts of the live entries with the key. -/
theorem search_eq (h : f.Lists L) (key : Int32) :
    f.search key = .ok ((L.filter fun e => e.1 == key && isLive e).map fun e => e.2.text) := by
  cases h with
  | nothing hroot => exact search_of_not_isValid hroot key
  | tree hcarries => exact hcarries.search_eq key

/-- A range gives the live entries with keys in it. -/
theorem range_eq (h : f.Lists L) (low high : Int32) :
    f.range low high = .ok ((L.filter fun e => low ≤ e.1 && e.1 ≤ high && isLive e).map shown) := by
  cases h with
  | nothing hroot => exact range_of_not_isValid hroot low high
  | tree hcarries => exact hcarries.range_eq low high

/-- All entries are the live ones. -/
theorem entries_eq (h : f.Lists L) : f.entries = .ok ((L.filter isLive).map shown) := by
  rw [entries, h.chain_eq]
  rfl

/-- Another file lists the same if its record is the same and its pages read the same. -/
theorem congr (h : f.Lists L) (hrecord : g.record = f.record)
    (hread : ∀ p, g.readPage p = f.readPage p) : g.Lists L := by
  cases h with
  | nothing hroot => exact .nothing (by rwa [root, hrecord])
  | tree hcarries => exact .tree (hcarries.congr hrecord hread)

end Lists

/-- **The reads of a file that an audit accepts are exact**: none fails, and each gives the live pairs
of the leaves with the wanted keys, in their order. -/
theorem reads_of_verify {f : PageFile} {s : TreeStats} (h : f.verify = .ok s) :
    ∃ F, f.pairs = .ok F ∧ f.entries = .ok ((F.filter isLive).map shown) ∧
      (∀ low high, f.range low high =
        .ok ((F.filter fun e => low ≤ e.1 && e.1 ≤ high && isLive e).map shown)) ∧
      (∀ low high, high < low → f.range low high = .ok []) ∧
      (∀ key, f.search key =
        .ok ((F.filter fun e => e.1 == key && isLive e).map fun e => e.2.text)) ∧
      ∀ key, f.search key = (f.range key key).map fun found => found.map (·.2) := by
  obtain ⟨hroot, -⟩ | ⟨height, t, hcarries, -⟩ := verify_eq_ok_iff.1 h
  · refine ⟨[], pairs_of_not_isValid hroot, ?_, fun low high => range_of_not_isValid hroot low high,
      fun low high _ => range_of_not_isValid hroot low high,
      fun key => search_of_not_isValid hroot key, fun key => ?_⟩
    · rw [entries, chain_of_not_isValid hroot]
      rfl
    · rw [search_of_not_isValid hroot, range_of_not_isValid hroot]
      rfl
  · refine ⟨t.entries, hcarries.pairs_eq, ?_, hcarries.range_eq, fun low high hempty => ?_,
      hcarries.search_eq, fun key => ?_⟩
    · rw [entries, hcarries.chain_eq]
      rfl
    · rw [range, if_pos hempty]
    · rw [hcarries.search_eq, hcarries.range_eq]
      -- a key between `key` and `key` is `key`
      have hsame : ∀ e : Int32 × RowId,
          (decide (key ≤ e.1) && decide (e.1 ≤ key) && isLive e) = (e.1 == key && isLive e) := by
        intro e
        rw [Bool.eq_iff_iff]
        simp only [Bool.and_eq_true, decide_eq_true_eq, beq_iff_eq]
        constructor
        · rintro ⟨⟨hge, hle⟩, hlive⟩
          exact ⟨Int32.le_antisymm hle hge, hlive⟩
        · rintro ⟨hkey, hlive⟩
          exact ⟨⟨Int32.le_of_eq hkey.symm, Int32.le_of_eq hkey⟩, hlive⟩
      simp only [Except.map, List.map_map, hsame]
      rfl

theorem reads_of_verify_straddledFile :
    straddledFile.verify = .ok ⟨3, 4, 3, 6, 0, 8⟩ ∧
      straddledFile.search 5 = .ok (["b", "c", "d", "e"].map fun text => (RowId.ofText text).text) ∧
      straddledFile.range 6 3 = .ok [] ∧
      straddledFile.range 4 7 = .ok (([(5, "b"), (5, "c"), (5, "d"), (5, "e"), (7, "f")] :
        List (Int32 × String)).map fun e => shown (e.1, RowId.ofText e.2)) := by
  obtain ⟨height, hcarries⟩ := exists_carries_straddledFile
  have hverify : straddledFile.verify = .ok ⟨3, 4, 3, 6, 0, 8⟩ :=
    verify_eq_ok_iff.2 (Or.inr ⟨height, _, hcarries, by decide⟩)
  obtain ⟨F, hF, -, hrange, hempty, hsearch, -⟩ := reads_of_verify hverify
  rw [hcarries.pairs_eq] at hF
  obtain rfl := Except.ok.inj hF
  exact ⟨hverify, (hsearch 5).trans rfl, hempty 6 3 (by decide), (hrange 4 7).trans rfl⟩

end PageFile

end RowIndex
