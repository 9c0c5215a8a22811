import RowIndex.Proofs.Insertions

/-! # Where equal keys lie

A lookup leaves a node to the left of a separator that equals its key, an insertion to the right. The
two may part at any level, and what lies between them are the entries with the key.

* **`Tree.Reaches`** — the leaf that a route reaches in a tree, and how many leaves lie to its left.
* **`Reaches.le`** — a route that goes further right at every node reaches no earlier leaf.
* **`Reaches.descend`**, `Reaches.insertBelow` — a descent ends at the leaf that its route reaches, and
  an insertion that has nothing to split writes to it.
* **`Tree.Brackets`** — two leaves with the entries of a key between them.
* **`routes_bracket_equal_keys`** — in an audited file the leaf of a lookup and the leaf of an insertion
  bracket all entries with the key. -/

namespace RowIndex

theorem Route.lookup_le_insertion (key : Int32) (keys : List Int32) :
    Route.lookup key keys ≤ Route.insertion key keys := by
  unfold Route.lookup Route.insertion frontCount
  induction keys with
  | nil => exact Nat.le_refl _
  | cons k keys ih =>
    rw [List.takeWhile_cons, List.takeWhile_cons]
    by_cases hlt : k < key
    · -- a key that a lookup passes is passed by an insertion too
      have hle : k ≤ key := Int32.le_of_lt hlt
      simp only [hlt, hle, decide_true, if_true, List.length_cons]
      exact Nat.succ_le_succ ih
    · simp only [hlt, decide_false]
      exact Nat.zero_le _

namespace Tree

/-! ## (1) The leaf that a route reaches -/

/-- **A route reaches a leaf of a tree**, with `place` leaves to its left. -/
inductive Reaches (route : Route) : Tree → (place : Nat) → Leaf → Prop
  /-- At a leaf the route has come to its end. -/
  | leaf {id : PageId} {es : List (Int32 × RowId)} {next : PageId} :
      Reaches route (.leaf id es next) 0 ⟨id, es, next⟩
  /-- A branch is left through the child that the route picks, behind all leaves of the children to the
  left of it. -/
  | branch {id : PageId} {keys : List Int32} {ts us : List Tree} {c : Tree} {place : Nat} {l : Leaf} :
      ts.length = route keys → Reaches route c place l →
        Reaches route (.branch id keys (ts ++ c :: us)) ((ts.flatMap leaves).length + place) l

namespace Reaches

variable {route route' : Route} {t : Tree} {place place' : Nat} {l l' : Leaf}

/-- The leaf stands at its place among the leaves. -/
theorem getElem?_leaves (h : Reaches route t place l) : t.leaves[place]? = some l := by
  induction h with
  | leaf => rfl
  | @branch id keys ts us c place l _ _ ih =>
    have hlt : place < c.leaves.length := (List.getElem?_eq_some_iff.1 ih).1
    rw [leaves_branch, List.flatMap_append, List.flatMap_cons,
      List.getElem?_append_right (Nat.le_add_right _ _), Nat.add_sub_cancel_left,
      List.getElem?_append_left hlt, ih]

theorem place_lt (h : Reaches route t place l) : place < t.leaves.length :=
  (List.getElem?_eq_some_iff.1 h.getElem?_leaves).1

/-- **A route that goes further right at every node reaches no earlier leaf.** -/
theorem le (h : Reaches route t place l) (h' : Reaches route' t place' l')
    (hright : ∀ keys, route keys ≤ route' keys) : place ≤ place' := by
  induction h generalizing place' l' with
  | leaf => exact Nat.zero_le _
  | @branch id keys ts us c place l hlen hc ih =>
    generalize hbranch : Tree.branch id keys (ts ++ c :: us) = top at h'
    cases h' with
    | leaf => cases hbranch
    | @branch id' keys' ts' us' c' place' l' hlen' hc' =>
      obtain ⟨rfl, rfl, hchildren⟩ := Tree.branch.inj hbranch
      have hright' : ts.length ≤ ts'.length := by
        rw [hlen, hlen']
        exact hright keys
      rcases Nat.eq_or_lt_of_le hright' with hsame | hfurther
      · -- the routes have not parted yet
        obtain ⟨rfl, hrest⟩ := List.append_inj hchildren hsame
        obtain ⟨rfl, -⟩ := List.cons.inj hrest
        exact Nat.add_le_add_left (ih hc') _
      · -- they part here: all of the first child lies to the left of the second
        obtain ⟨mid, rfl⟩ : ∃ mid, ts' = ts ++ c :: mid := by
          have hcut := congrArg (List.take (ts.length + 1)) hchildren
          rw [List.take_append_of_le_length hfurther, List.take_length_add_append] at hcut
          refine ⟨ts'.drop (ts.length + 1), ?_⟩
          rw [← List.take_append_drop (ts.length + 1) ts', ← hcut]
          simp
        have hlt := hc.place_lt
        rw [List.flatMap_append, List.flatMap_cons, List.length_append, List.length_append]
        omega

/-- **A descent ends at the leaf that its route reaches**, given fuel for all levels. -/
theorem descend {f : PageFile} (h : Reaches route t place l) (hheld : f.Holds t) {height : Nat}
    (hbalanced : Balanced height t) {fuel : Nat} (hfuel : height ≤ fuel) :
    f.descend route fuel t.node = .ok l.node := by
  induction h generalizing height fuel with
  | leaf =>
    rw [PageFile.descend.eq_def]
    rfl
  | @branch id keys ts us c place l hlen _ ih =>
    cases height with
    | zero => exact False.elim hbalanced
    | succ height =>
      obtain ⟨fuel, rfl⟩ : ∃ n, fuel = n + 1 := ⟨fuel - 1, by omega⟩
      have hc := (PageFile.holds_branch_iff.1 hheld).2 c (by simp)
      rw [PageFile.descend_branch, ← hlen, PageFile.childAt_map_page]
      simp only [hc.readPage]
      exact ih hc (hbalanced c (by simp)) (Nat.le_of_succ_le_succ hfuel)

/-- **An insertion that meets no full child writes to the leaf that its route reaches.** -/
theorem insertBelow {f : PageFile} {key : Int32} (h : Reaches (Route.insertion key) t place l)
    (hheld : f.Holds t) (hroom : ∀ s ∈ t.subtrees, ¬ s.node.isFull) {height : Nat}
    (hbalanced : Balanced height t) {fuel : Nat} (hfuel : height ≤ fuel) (value : RowId) :
    (PageFile.insertBelow key value fuel t.node).runOn f
      = (PageFile.writePage (l.node.withEntry key value)).runOn f := by
  induction h generalizing height fuel with
  | leaf =>
    rw [PageFile.insertBelow.eq_def]
    rfl
  | @branch id keys ts us c place l hlen _ ih =>
    cases height with
    | zero => exact False.elim hbalanced
    | succ height =>
      obtain ⟨fuel, rfl⟩ : ∃ n, fuel = n + 1 := ⟨fuel - 1, by omega⟩
      have hc := (PageFile.holds_branch_iff.1 hheld).2 c (by simp)
      have hbelow : ∀ s ∈ c.subtrees, s ∈ (Tree.branch id keys (ts ++ c :: us)).subtrees := by
        intro s hs
        rw [subtrees_branch]
        exact List.mem_cons_of_mem _ (List.mem_flatMap.2 ⟨c, by simp, hs⟩)
      rw [PageFile.runOn_insertBelow_branch key value fuel f hlen.symm hheld,
        if_neg (hroom c (hbelow c (self_mem_subtrees c)))]
      exact ih hc (fun s hs => hroom s (hbelow s hs)) (hbalanced c (by simp))
        (Nat.le_of_succ_le_succ hfuel)

end Reaches

/-- **A route that picks one of the children** reaches a leaf of every tree that fits in its pages. -/
theorem Fits.exists_reaches {route : Route} (hroute : ∀ keys, route keys ≤ keys.length) {t : Tree}
    (h : t.Fits) : ∃ place l, Reaches route t place l := by
  induction t with
  | leaf id es next => exact ⟨0, _, .leaf⟩
  | branch id keys children ih =>
    have hpick : route keys < children.length := by
      rw [h.length_children]
      exact Nat.lt_succ_of_le (hroute keys)
    obtain ⟨ts, c, us, rfl, hlen⟩ := exists_append_cons children hpick
    obtain ⟨place, l, hc⟩ := ih c (by simp) (h.of_mem_children (by simp))
    exact ⟨_, l, .branch hlen hc⟩

/-! ## (2) Leaves around a key -/

/-- **The leaves at the places `i` and `j` bracket a key** among ascending leaves. -/
structure Brackets (key : Int32) (leaves : List Leaf) (i j : Nat) : Prop where
  /-- The first is the second, or comes before it. -/
  le : i ≤ j
  /-- Before the first leaf all keys are below the key. -/
  below : ∀ n l, leaves[n]? = some l → n < i → ∀ e ∈ l.entries, e.1 < key
  /-- Behind the first leaf no key is. -/
  notBelow : ∀ n l, leaves[n]? = some l → i < n → ∀ e ∈ l.entries, key ≤ e.1
  /-- Before the second leaf no key is above the key. -/
  notAbove : ∀ n l, leaves[n]? = some l → n < j → ∀ e ∈ l.entries, e.1 ≤ key
  /-- Behind the second leaf all keys are. -/
  above : ∀ n l, leaves[n]? = some l → j < n → ∀ e ∈ l.entries, key < e.1

namespace Brackets

variable {key : Int32} {leaves : List Leaf} {i j n : Nat} {l : Leaf} (h : Brackets key leaves i j)

include h

/-- **Entries with the key lie between the two leaves**, or in them. -/
theorem between (hl : leaves[n]? = some l) {e : Int32 × RowId} (he : e ∈ l.entries)
    (hkey : e.1 = key) : i ≤ n ∧ n ≤ j := by
  constructor
  · by_contra hbefore
    have hlt := h.below n l hl (Nat.lt_of_not_le hbefore) e he
    rw [hkey] at hlt
    exact Int32.lt_irrefl hlt
  · by_contra hbehind
    have hlt := h.above n l hl (Nat.lt_of_not_le hbehind) e he
    rw [hkey] at hlt
    exact Int32.lt_irrefl hlt

/-- **Leaves strictly between the two hold nothing but entries with the key.** -/
theorem inside (hl : leaves[n]? = some l) (hi : i < n) (hj : n < j) :
    ∀ e ∈ l.entries, e.1 = key := by
  intro e he
  apply Int32.le_antisymm
  · exact h.notAbove n l hl hj e he
  · exact h.notBelow n l hl hi e he

end Brackets

end Tree

namespace PageFile

open RowIndex.Tree

/-! ## (3) The two routes in an audited file -/

section Routes

variable {f : PageFile} {height : Nat} {t : Tree}

/-- **A route from the root ends at the leaf that it reaches in the tree.** -/
theorem Carries.leafBy_of_reaches (h : f.Carries height t) {route : Route} {place : Nat} {l : Leaf}
    (hreaches : Reaches route t place l) : f.leafBy route = .ok (some l.node) := by
  have hread := h.held.readPage
  rw [h.page] at hread
  have hrun := hreaches.descend h.held h.ordered.balanced (Nat.le_of_lt h.height_lt)
  rw [leafBy, if_pos (Metadata.isValid_of_isAllocated h.isAllocated_root), hread]
  simp only [bind, Except.bind, hrun]
  rfl

/-- **The leaf that a route reaches divides the keys**: those to the left of it satisfy the route's
condition, those to the right do not. -/
theorem Carries.sides_of_reaches (h : f.Carries height t) {p : Int32 → Bool} (hp : Downward p)
    {place : Nat} {l : Leaf} (hreaches : Reaches (frontCount p) t place l) :
    (∀ n m, t.leaves[n]? = some m → n < place → ∀ e ∈ m.entries, p e.1) ∧
      ∀ n m, t.leaves[n]? = some m → place < n → ∀ e ∈ m.entries, ¬ p e.1 := by
  obtain ⟨before, m, after, hleaf, hsplit, hbefore, hafter⟩ := h.leafBy_eq hp
  -- the leaf is found twice, and a page stands at one place only
  have hnode : m.node = l.node :=
    Option.some.inj (Except.ok.inj (hleaf.symm.trans (h.leafBy_of_reaches hreaches)))
  have hid : m.id = l.id := congrArg Node.id hnode
  have hplace : before.length = place := by
    have hlt : before.length < (t.leaves.map Leaf.id).length := by
      rw [hsplit]
      simp
    apply (List.getElem?_inj hlt h.nodup_leaves).1
    rw [List.getElem?_map, List.getElem?_map, hreaches.getElem?_leaves, hsplit,
      List.getElem?_append_right (Nat.le_refl _), Nat.sub_self]
    exact congrArg some hid
  constructor
  · intro n k hk hn e he
    rw [hsplit, List.getElem?_append_left (by omega)] at hk
    exact hbefore e (List.mem_flatMap.2 ⟨k, List.mem_of_getElem? hk, he⟩)
  · intro n k hk hn e he
    obtain ⟨r, rfl⟩ : ∃ r, n = before.length + (r + 1) := ⟨n - before.length - 1, by omega⟩
    rw [hsplit, List.getElem?_append_right (Nat.le_add_right _ _), Nat.add_sub_cancel_left,
      List.getElem?_cons_succ] at hk
    exact hafter e (List.mem_flatMap.2 ⟨k, List.mem_of_getElem? hk, he⟩)

/-- **The leaves that a lookup and an insertion reach bracket the key.** -/
theorem Carries.brackets (h : f.Carries height t) {key : Int32} {i j : Nat} {l m : Leaf}
    (hlookup : Reaches (Route.lookup key) t i l) (hinsertion : Reaches (Route.insertion key) t j m) :
    Brackets key t.leaves i j := by
  obtain ⟨hbelow, hnotBelow⟩ := h.sides_of_reaches (downward_lt key) hlookup
  obtain ⟨hnotAbove, habove⟩ := h.sides_of_reaches (downward_le key) hinsertion
  refine ⟨hlookup.le hinsertion (Route.lookup_le_insertion key), fun n k hk hn e he => ?_,
    fun n k hk hn e he => ?_, fun n k hk hn e he => ?_, fun n k hk hn e he => ?_⟩
  · exact of_decide_eq_true (hbelow n k hk hn e he)
  · exact Int32.not_lt.1 fun hlt => hnotBelow n k hk hn e he (decide_eq_true hlt)
  · exact of_decide_eq_true (hnotAbove n k hk hn e he)
  · exact Int32.not_le.1 fun hle => habove n k hk hn e he (decide_eq_true hle)

/-- **An insertion that has nothing to split** writes to the leaf that its route reaches. -/
theorem Carries.insertValue_of_room (h : f.Carries height t) {key : Int32} {j : Nat} {m : Leaf}
    (hreaches : Reaches (Route.insertion key) t j m) (hroom : ∀ s ∈ t.subtrees, ¬ s.node.isFull)
    (value : RowId) :
    (insertValue key value).runOn f = (writePage (m.node.withEntry key value)).runOn f := by
  have hread := h.held.readPage
  rw [h.page] at hread
  have hfuel : height ≤ insertionBound f.pageCount := by
    have hheight := h.height_lt
    have hbound := lt_insertionBound f.pageCount
    omega
  rw [insertValue, Action.runOn_bind, Action.runOn_get]
  simp only [if_pos (Metadata.isValid_of_isAllocated h.isAllocated_root)]
  rw [Action.runOn_bind, Action.runOn_ask, hread]
  simp only [if_neg (hroom t (self_mem_subtrees t))]
  exact hreaches.insertBelow h.held hroom h.ordered.balanced hfuel value

end Routes

/-- **The routes of lookups and insertions bracket every equal key.** In a file with a root that an audit
accepts, a lookup and an insertion without splits each end at a leaf of the chain, the insertion at the
same leaf or a later one. All entries with the key lie between these two, and leaves strictly between
them hold nothing else. -/
theorem routes_bracket_equal_keys {f : PageFile} {s : TreeStats} (hroot : f.root.isValid)
    (h : f.verify = .ok s) (key : Int32) :
    ∃ t i j l m, f.WellFormed t ∧ t.leaves[i]? = some l ∧ t.leaves[j]? = some m ∧
      f.leafBy (Route.lookup key) = .ok (some l.node) ∧
      f.leafBy (Route.insertion key) = .ok (some m.node) ∧
      Brackets key t.leaves i j ∧
      (∀ n k, t.leaves[n]? = some k → ∀ e ∈ k.entries, e.1 = key → i ≤ n ∧ n ≤ j) ∧
      (∀ n k, t.leaves[n]? = some k → i < n → n < j → ∀ e ∈ k.entries, e.1 = key) ∧
      ((∀ p n, f.readPage p = .ok n → ¬ n.isFull) → ∀ value,
        (insertValue key value).runOn f = (writePage (m.node.withEntry key value)).runOn f) := by
  obtain ⟨hnone, -⟩ | ⟨height, t, hcarries, -⟩ := verify_eq_ok_iff.1 h
  · exact absurd hroot hnone
  obtain ⟨i, l, hlookup⟩ := hcarries.held.fits.exists_reaches (frontCount_le (· < key))
  obtain ⟨j, m, hinsertion⟩ := hcarries.held.fits.exists_reaches (frontCount_le (· ≤ key))
  have hbrackets := hcarries.brackets hlookup hinsertion
  exact ⟨t, i, j, l, m, wellFormed_iff_carries.2 ⟨height, hcarries⟩, hlookup.getElem?_leaves,
    hinsertion.getElem?_leaves, hcarries.leafBy_of_reaches hlookup,
    hcarries.leafBy_of_reaches hinsertion, hbrackets,
    fun n k hk e he hkey => hbrackets.between hk he hkey,
    fun n k hk hi hj => hbrackets.inside hk hi hj,
    fun hroom value => hcarries.insertValue_of_room hinsertion
      (fun s hs => hroom _ _ (hcarries.held s hs)) value⟩

theorem routes_bracket_equal_keys_straddledFile :
    straddledFile.root.isValid ∧ straddledFile.verify = .ok ⟨3, 4, 3, 6, 0, 8⟩ ∧
      ∃ i j l m, straddledTree.leaves[i]? = some l ∧ straddledTree.leaves[j]? = some m ∧
        l.id = ⟨4⟩ ∧ m.id = ⟨7⟩ ∧ Brackets 5 straddledTree.leaves i j := by
  obtain ⟨height, hcarries⟩ := exists_carries_straddledFile
  have hroot : straddledFile.root.isValid := by decide
  have hverify : straddledFile.verify = .ok ⟨3, 4, 3, 6, 0, 8⟩ :=
    verify_eq_ok_iff.2 (Or.inr ⟨height, _, hcarries, by decide⟩)
  refine ⟨hroot, hverify, ?_⟩
  obtain ⟨t, i, j, l, m, ht, hl, hm, hlookup, hinsertion, hbrackets, -⟩ :=
    routes_bracket_equal_keys hroot hverify 5
  obtain rfl := ht.held.eq_of_page_eq hcarries.held (ht.page.trans hcarries.page.symm)
  -- the lookup goes left at both levels, and the insertion goes right
  have hfirst : Reaches (Route.lookup 5) straddledTree 0 straddledLeaves[0] :=
    @Reaches.branch _ _ _ [] _ _ 0 _ rfl (@Reaches.branch _ _ _ [] _ _ 0 _ rfl .leaf)
  have hlast : Reaches (Route.insertion 5) straddledTree 3 straddledLeaves[3] :=
    @Reaches.branch _ _ _ [_] _ _ 1 _ rfl (@Reaches.branch _ _ _ [_] _ _ 0 _ rfl .leaf)
  rw [hcarries.leafBy_of_reaches hfirst] at hlookup
  rw [hcarries.leafBy_of_reaches hlast] at hinsertion
  refine ⟨i, j, l, m, hl, hm, ?_, ?_, hbrackets⟩
  · exact congrArg Node.id (Option.some.inj (Except.ok.inj hlookup.symm))
  · exact congrArg Node.id (Option.some.inj (Except.ok.inj hinsertion.symm))

end PageFile

end RowIndex
