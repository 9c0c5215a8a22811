import RowIndex.Proofs.Reopening
import RowIndex.Proofs.RowIdScans

/-! # The shape of a tree depends on its keys only

Two runs that insert the same keys, whatever the texts, split the same nodes and allocate the same
pages. Deletions clear slots and nothing else, and saving or opening a file again changes no page.

* **`Node.SameButSlots`** — two nodes that differ in their slots at most; one lemma for each view and
  each change of a node.
* **`Action.Matches`** — two actions that come to the same on files that are alike.
* **`PageFile.SameShape`** — two files with the same page 0, whose pages hold nodes that differ in
  their slots at most.
* **`Twins.insert`**, `Twins.idle` — what an insertion into both files keeps, and any other call on one
  of them.
* **`Twins.afterCalls`** — a run has the shape of one that inserts its keys and does nothing else.
* **`shape_of_keys`** — the shape of the tree after a run depends on the inserted keys only. -/

namespace RowIndex

/-! ## (1) Nodes that differ in their slots -/

namespace Node

/-- **Two nodes that differ in their slots at most**: the keys, the children or the next leaf, and the
number of slots are the same. -/
inductive SameButSlots : Node → Node → Prop
  /-- Two leaves with as many slots. -/
  | leaf {id : PageId} {keys : List Int32} {values values' : List RowId} {next : PageId} :
      values.length = values'.length →
        SameButSlots ⟨id, keys, .leaf values next⟩ ⟨id, keys, .leaf values' next⟩
  /-- An internal node has no slots. -/
  | internal {id : PageId} {keys : List Int32} {children : List PageId} :
      SameButSlots ⟨id, keys, .internal children⟩ ⟨id, keys, .internal children⟩

/-- **Whether a byte of a node's page belongs to one of its slots.** -/
def InSlot (n : Node) (i : Nat) : Prop :=
  n.isLeaf ∧ Layout.payloadOffset ≤ i ∧ i < Layout.payloadOffset + n.keys.length * Layout.valueSize

namespace SameButSlots

variable {n m k : Node}

theorem refl (n : Node) : SameButSlots n n := by
  obtain ⟨id, keys, values | children⟩ := n
  · exact .leaf rfl
  · exact .internal

theorem symm (h : n.SameButSlots m) : m.SameButSlots n := by
  cases h with
  | leaf hlen => exact .leaf hlen.symm
  | internal => exact .internal

theorem trans (h : n.SameButSlots m) (h' : m.SameButSlots k) : n.SameButSlots k := by
  cases h with
  | leaf hlen =>
    cases h' with
    | leaf hlen' => exact .leaf (hlen.trans hlen')
  | internal =>
    cases h' with
    | internal => exact .internal

section Views

variable (h : n.SameButSlots m)

include h

theorem id : m.id = n.id := by
  cases h <;> rfl

theorem keys : m.keys = n.keys := by
  cases h <;> rfl

theorem children : m.children = n.children := by
  cases h <;> rfl

theorem next : m.next = n.next := by
  cases h <;> rfl

theorem isLeaf : m.isLeaf = n.isLeaf := by
  cases h <;> rfl

theorem isFull : m.isFull = n.isFull := by
  rw [Node.isFull, Node.isFull, h.keys]

theorem length_values : m.values.length = n.values.length := by
  cases h with
  | leaf hlen => exact hlen.symm
  | internal => rfl

/-- Both fit in a page or neither does, for the same reason. -/
theorem defect? : m.defect? = n.defect? := by
  cases h with
  | leaf hlen => simp only [Node.defect?, hlen]
  | internal => rfl

theorem check : m.check = n.check := by
  rw [Node.check, Node.check, h.defect?, h.id]

end Views

/-- **Clearing slots changes nothing else.** -/
theorem clear (n : Node) (targets : List RowId) : n.SameButSlots (n.clear targets) := by
  obtain ⟨id, keys, ⟨values, next⟩ | children⟩ := n
  · rw [clear_leaf]
    exact .leaf (List.length_map _).symm
  · exact .internal

/-- **A sibling is linked in alike**: a parent has no slots of its own. -/
theorem withChild (h : n.SameButSlots m) (i : Nat) (separator : Int32) (sibling : PageId) :
    m.withChild i separator sibling = n.withChild i separator sibling := by
  rw [Node.withChild, Node.withChild, h.id, h.keys, h.children]

/-- **An entry is put at the same place.** -/
theorem withEntry (h : n.SameButSlots m) (key : Int32) (value value' : RowId) :
    (n.withEntry key value).SameButSlots (m.withEntry key value') := by
  simp only [Node.withEntry, h.id, h.keys, h.next]
  refine .leaf ?_
  rw [List.length_insertIdx, List.length_insertIdx, h.length_values]

/-- **Halves are made at the same place.** -/
theorem split? (h : n.SameButSlots m) (sibling : PageId) :
    n.split? sibling = none ∧ m.split? sibling = none ∨
      ∃ s s', n.split? sibling = some s ∧ m.split? sibling = some s' ∧
        s.left.SameButSlots s'.left ∧ s'.separator = s.separator ∧
          s.right.SameButSlots s'.right := by
  cases h with
  | @leaf id keys values values' next hlen =>
    rw [Node.split?, Node.split?]
    cases keys[Layout.minDegree]? with
    | none => exact Or.inl ⟨rfl, rfl⟩
    | some separator =>
      refine Or.inr ⟨_, _, rfl, rfl, .leaf ?_, rfl, .leaf ?_⟩
      · rw [List.length_take, List.length_take, hlen]
      · rw [List.length_drop, List.length_drop, hlen]
  | @internal id keys children =>
    cases hsplit : Node.split? ⟨id, keys, .internal children⟩ sibling with
    | none => exact Or.inl ⟨rfl, rfl⟩
    | some s => exact Or.inr ⟨s, s, rfl, rfl, refl _, rfl, refl _⟩

/-- **The pages of the two nodes have the same bytes outside the slots.** -/
theorem byteAt_image (h : n.SameButSlots m) (hfit : n.defect? = none) {i : Nat} (hi : ¬ n.InSlot i) :
    Bytes.byteAt m.image.bytes i = Bytes.byteAt n.image.bytes i := by
  have hfit' : m.defect? = none := h.defect?.trans hfit
  by_cases hfront : i < Layout.payloadOffset
  · -- header and keys are the same
    have hhead : m.head = n.head := by
      rw [head, head, header, header, h.id, h.isLeaf, h.keys, h.next]
    rw [byteAt_image_of_lt m hfront, byteAt_image_of_lt n hfront, hhead]
  · by_cases hend : i < Layout.pageSize
    · cases h with
      | leaf hlen =>
        -- behind the slots there is nothing
        have hslots := size_payload hfit
        have hslots' := size_payload hfit'
        simp only [Node.isLeaf, if_true] at hslots hslots'
        simp only [InSlot, Node.isLeaf, true_and, not_and, not_lt] at hi
        have hlast := hi (Nat.le_of_not_lt hfront)
        rw [byteAt_image_of_payload_le _ (by rw [hslots']; exact hlast) hend,
          byteAt_image_of_payload_le _ (by rw [hslots]; exact hlast) hend]
      | internal => rfl
    · rw [Bytes.byteAt_of_ge (by rw [Page.size_bytes]; exact Nat.le_of_not_lt hend),
        Bytes.byteAt_of_ge (by rw [Page.size_bytes]; exact Nat.le_of_not_lt hend)]

end SameButSlots

end Node

/-! ## (2) Two actions side by side -/

namespace Action

variable {α β γ δ : Type} {R : PageFile → PageFile → Prop} {S : α → β → Prop} {T : γ → δ → Prop}

/-- **Two outcomes that are alike**: both succeed with answers that are alike, or both fail for the same
reason. -/
inductive Paired (R : PageFile → PageFile → Prop) (S : α → β → Prop) :
    Except Failure α × PageFile → Except Failure β × PageFile → Prop
  /-- Both succeed. -/
  | ok {a : α} {b : β} {f g : PageFile} : S a b → R f g → Paired R S (.ok a, f) (.ok b, g)
  /-- Both fail. -/
  | error {failure : Failure} {f g : PageFile} :
      R f g → Paired R S (.error failure, f) (.error failure, g)

/-- The files that are left behind are alike. -/
theorem Paired.files {outcome : Except Failure α × PageFile} {outcome' : Except Failure β × PageFile}
    (h : Paired R S outcome outcome') : R outcome.2 outcome'.2 := by
  cases h with
  | ok _ hfg => exact hfg
  | error hfg => exact hfg

/-- **Two actions that come to the same on files that are alike.** -/
def Matches (R : PageFile → PageFile → Prop) (S : α → β → Prop) (action : Action α)
    (action' : Action β) : Prop :=
  ∀ f g, R f g → Paired R S (action.runOn f) (action'.runOn g)

theorem matches_pure {a : α} {b : β} (h : S a b) :
    Matches R S (pure a : Action α) (pure b : Action β) :=
  fun _ _ hfg => .ok h hfg

theorem matches_throw (failure : Failure) :
    Matches R S (throw failure : Action α) (throw failure : Action β) :=
  fun _ _ hfg => .error hfg

/-- **One action after another.** -/
theorem matches_bind {action : Action α} {action' : Action β} {next : α → Action γ}
    {next' : β → Action δ} (h : Matches R S action action')
    (hnext : ∀ a b, S a b → Matches R T (next a) (next' b)) :
    Matches R T (action >>= next) (action' >>= next') := by
  intro f g hfg
  have hpaired := h f g hfg
  rw [runOn_bind, runOn_bind]
  generalize action.runOn f = outcome at hpaired ⊢
  generalize action'.runOn g = outcome' at hpaired ⊢
  cases hpaired with
  | ok hab hfg' => exact hnext _ _ hab _ _ hfg'
  | error hfg' => exact .error hfg'

/-- What is done with the file itself. -/
theorem matches_get_bind {next next' : PageFile → Action γ}
    {S : γ → γ → Prop} (h : ∀ f g, R f g → Matches R S (next f) (next' g)) :
    Matches R S (get >>= next) (get >>= next') := by
  intro f g hfg
  rw [runOn_bind, runOn_bind, runOn_get, runOn_get]
  exact h f g hfg f g hfg

end Action

namespace PageFile

open RowIndex.Action

variable {f g k : PageFile} {sizing : Sizing}

/-! ## (3) Files of the same shape -/

/-- **Two pages of the same shape**: what they read as differs in slots at most. Unless the pages are
the same and hold no slots, each is the page of its node. -/
def PagesMatch (p : PageId) (page page' : Page) : Prop :=
  ∃ n m : Node, Node.decode page.bytes = .ok n ∧ Node.decode page'.bytes = .ok m ∧ n.id = p ∧
    n.SameButSlots m ∧ (page = page' ∧ Bare n ∨ page = n.image ∧ page' = m.image)

namespace PagesMatch

variable {p : PageId} {page page' page'' : Page}

theorem symm (h : PagesMatch p page page') : PagesMatch p page' page := by
  obtain ⟨n, m, hn, hm, hid, hsame, hpages⟩ := h
  refine ⟨m, n, hm, hn, hsame.id.trans hid, hsame.symm, ?_⟩
  rcases hpages with ⟨heq, hbare⟩ | ⟨hpage, hpage'⟩
  · rw [heq, hm] at hn
    exact Or.inl ⟨heq.symm, Except.ok.inj hn ▸ hbare⟩
  · exact Or.inr ⟨hpage', hpage⟩

theorem trans (h : PagesMatch p page page') (h' : PagesMatch p page' page'') :
    PagesMatch p page page'' := by
  obtain ⟨n, m, hn, hm, hid, hsame, hpages⟩ := h
  obtain ⟨m', k, hm', hk, -, hsame', hpages'⟩ := h'
  obtain rfl := Except.ok.inj (hm.symm.trans hm')
  refine ⟨n, k, hn, hk, hid, hsame.trans hsame', ?_⟩
  rcases hpages with ⟨rfl, hbare⟩ | ⟨rfl, rfl⟩
  · rw [hm] at hn
    obtain rfl := Except.ok.inj hn
    rcases hpages' with ⟨rfl, -⟩ | hpages'
    · exact Or.inl ⟨rfl, hbare⟩
    · exact Or.inr hpages'
  · rcases hpages' with ⟨rfl, -⟩ | ⟨-, rfl⟩
    · rw [hm] at hk
      exact Or.inr ⟨rfl, congrArg Node.image (Except.ok.inj hk)⟩
    · exact Or.inr ⟨rfl, rfl⟩

/-- A fresh page matches itself. -/
theorem fresh (p : PageId) : PagesMatch p (freshPage p) (freshPage p) :=
  ⟨_, _, decode_freshPage p, decode_freshPage p, rfl, .refl _, Or.inl ⟨rfl, bare_overChild p _⟩⟩

/-- The pages of nodes that differ in their slots. -/
theorem image {n m : Node} (hfit : n.defect? = none) (h : n.SameButSlots m) :
    PagesMatch n.id n.image m.image :=
  ⟨n, m, Node.decode_image hfit, Node.decode_image (h.defect?.trans hfit), rfl, h,
    Or.inr ⟨rfl, rfl⟩⟩

end PagesMatch

/-- **Two files of the same shape** on one system, both with the sizing `sizing`: all of page 0 is the
same, and the nodes on the other pages differ in their slots at most. -/
structure SameShape (sizing : Sizing) (f g : PageFile) : Prop where
  /-- The record in force is the same. -/
  record : g.record = f.record
  /-- As much is mapped. -/
  capacity : g.capacity = f.capacity
  /-- The files are equally long. -/
  length : g.image.length = f.image.length
  /-- Page 0 is the same, byte for byte. -/
  first : g.image.page 0 = f.image.page 0
  /-- The allocated pages have the same shape. -/
  pages : ∀ p, f.record.isAllocated p → PagesMatch p (f.image.page p.index) (g.image.page p.index)
  /-- The blocks behind them are the same. -/
  behind : ∀ i, f.pageCount ≤ i → g.image.blocks[i]? = f.image.blocks[i]?
  /-- The first file has the sizing. -/
  left : f.sizing = sizing
  /-- So has the second. -/
  right : g.sizing = sizing
  /-- They lie on the same system. -/
  host : g.host = f.host

namespace SameShape

theorem pageCount (h : SameShape sizing f g) : g.pageCount = f.pageCount :=
  congrArg Metadata.pageCount h.record

theorem symm (h : SameShape sizing f g) : SameShape sizing g f where
  record := h.record.symm
  capacity := h.capacity.symm
  length := h.length.symm
  first := h.first.symm
  pages p hp := (h.pages p (by rwa [← h.record])).symm
  behind i hi := (h.behind i (by rwa [← h.pageCount])).symm
  left := h.right
  right := h.left
  host := h.host.symm

theorem trans (h : SameShape sizing f g) (h' : SameShape sizing g k) : SameShape sizing f k where
  record := h'.record.trans h.record
  capacity := h'.capacity.trans h.capacity
  length := h'.length.trans h.length
  first := h'.first.trans h.first
  pages p hp := (h.pages p hp).trans (h'.pages p (by rwa [h.record]))
  behind i hi := (h'.behind i (by rwa [h.pageCount])).trans (h.behind i hi)
  left := h.left
  right := h'.right
  host := h'.host.trans h.host

/-- **What the pages read as**: the same failure, or nodes that differ in their slots. -/
theorem readPage (h : SameShape sizing f g) (p : PageId) :
    (∃ failure, f.readPage p = .error failure ∧ g.readPage p = .error failure) ∨
      ∃ n m, f.readPage p = .ok n ∧ g.readPage p = .ok m ∧ n.SameButSlots m := by
  by_cases hp : f.record.isAllocated p
  · obtain ⟨n, m, hn, hm, hid, hsame, -⟩ := h.pages p hp
    exact Or.inr ⟨n, m, readPage_eq_ok_iff.2 ⟨hp, hn, hid⟩,
      readPage_eq_ok_iff.2 ⟨by rwa [h.record], hm, hsame.id.trans hid⟩, hsame⟩
  · refine Or.inl ⟨.error (.pageOutOfRange p f.record.pages), ?_, ?_⟩
    · rw [PageFile.readPage, if_neg hp]
    · rw [PageFile.readPage, h.record, if_neg hp]

theorem nextPage (h : SameShape sizing f g) : g.nextPage = f.nextPage :=
  congrArg (fun m => PageId.mk m.pages) h.record

/-- A file with another content of the same shape. -/
theorem of_image (h : SameShape sizing f g) (hrecord : k.record = g.record)
    (hcapacity : k.capacity = g.capacity) (himage : k.image = g.image) (hsizing : k.sizing = g.sizing)
    (hhost : k.host = g.host) : SameShape sizing f k where
  record := hrecord.trans h.record
  capacity := hcapacity.trans h.capacity
  length := by rw [himage, h.length]
  first := by rw [himage, h.first]
  pages p hp := by
    rw [himage]
    exact h.pages p hp
  behind i hi := by
    rw [himage]
    exact h.behind i hi
  left := h.left
  right := hsizing.trans h.right
  host := hhost.trans h.host

/-- Storing the record keeps the shape. -/
theorem storeRecord (h : SameShape sizing f g) : SameShape sizing f.storeRecord g.storeRecord where
  record := h.record
  capacity := h.capacity
  length := h.length
  first := by rw [page_storeRecord, page_storeRecord, if_pos rfl, if_pos rfl, h.first, h.record]
  pages p hp := by
    have hplace := (Metadata.index_of_isAllocated hp).1
    rw [page_storeRecord, page_storeRecord, if_neg (by omega), if_neg (by omega)]
    exact h.pages p hp
  behind i hi := by
    rw [PageFile.storeRecord, PageFile.storeRecord, h.first, h.record]
    exact FileImage.getElem?_setPage_congr (h.behind i hi) 0 _
  left := h.left
  right := h.right
  host := h.host

/-- **Putting nodes that differ in their slots** on the same page of both files. -/
theorem withNode (h : SameShape sizing f g) {n m : Node} (hnm : n.SameButSlots m)
    (hfit : n.defect? = none) (hid : f.record.isAllocated n.id) :
    SameShape sizing (f.withNode n) (g.withNode m) where
  record := h.record
  capacity := h.capacity
  length := h.length
  first := by
    have hplace := (Metadata.index_of_isAllocated hid).1
    rw [page_withNode, page_withNode, hnm.id, if_neg (by omega), if_neg (by omega), h.first]
  pages p hp := by
    rw [page_withNode, page_withNode, hnm.id]
    by_cases hindex : p.index = n.id.index
    · rw [if_pos hindex, if_pos hindex, Metadata.eq_of_index_eq hp hid hindex]
      exact .image hfit hnm
    · rw [if_neg hindex, if_neg hindex]
      exact h.pages p hp
  behind i hi := by
    have hcounted := (Metadata.index_of_isAllocated hid).2
    have hplace : n.id.index ≠ i := Nat.ne_of_lt (Nat.lt_of_lt_of_le hcounted hi)
    rw [PageFile.withNode, PageFile.withNode, hnm.id, FileImage.getElem?_setPage_of_ne _ _ hplace,
      FileImage.getElem?_setPage_of_ne _ _ hplace]
    exact h.behind i hi
  left := h.left
  right := h.right
  host := h.host

end SameShape

/-! ## (4) Elementary actions on both files -/

/-- Making room keeps page 0 and all allocated pages. -/
theorem page_withRoom (f : PageFile) {i : Nat} (h : i ≤ f.pageCount) :
    f.withRoom.2.image.page i = f.image.page i := by
  have hroom : (i + 1) * Layout.pageSize ≤ f.grownLength :=
    Nat.le_trans (Nat.mul_le_mul_right _ (Nat.succ_le_succ h)) (Nat.le_add_right _ _)
  unfold withRoom
  split
  · rfl
  · split
    · rfl
    · split
      · split <;> exact FileImage.page_resize hroom
      · rfl

/-- **Room is made alike.** -/
theorem SameShape.withRoom (h : SameShape sizing f g) :
    g.withRoom.1 = f.withRoom.1 ∧ SameShape sizing f.withRoom.2 g.withRoom.2 := by
  have hcount := h.pageCount
  have hneeded : g.neededLength = f.neededLength := by rw [neededLength, neededLength, hcount]
  have hgrown : g.grownLength = f.grownLength := by
    rw [grownLength, grownLength, hneeded, h.left, h.right]
  have hfirst := page_withRoom f (Nat.zero_le _)
  have hfirst' := page_withRoom g (Nat.zero_le _)
  have hpages : ∀ p, f.record.isAllocated p →
      PagesMatch p (f.withRoom.2.image.page p.index) (g.withRoom.2.image.page p.index) := by
    intro p hp
    have hplace : p.index ≤ f.pageCount := Nat.le_of_lt (Metadata.index_of_isAllocated hp).2
    rw [page_withRoom f hplace, page_withRoom g (by rwa [hcount])]
    exact h.pages p hp
  have hresized := (FileImage.length_resize g.image f.grownLength).trans
    (FileImage.length_resize f.image f.grownLength).symm
  have hbehind : ∀ i, f.pageCount ≤ i →
      (g.image.resize f.grownLength).blocks[i]? = (f.image.resize f.grownLength).blocks[i]? := by
    intro i hi
    refine FileImage.getElem?_resize_congr h.length h.behind ?_ hi
    rw [Nat.le_div_iff_mul_le (by decide), grownLength, neededLength, Nat.succ_mul]
    omega
  -- in every case the two files get the same length, and as much of them is mapped
  obtain ⟨hanswer, hcapacity, hlength, hblocks, hleft, hright⟩ : g.withRoom.1 = f.withRoom.1 ∧
      g.withRoom.2.capacity = f.withRoom.2.capacity ∧
      g.withRoom.2.image.length = f.withRoom.2.image.length ∧
      (∀ i, f.pageCount ≤ i →
        g.withRoom.2.image.blocks[i]? = f.withRoom.2.image.blocks[i]?) ∧
      f.withRoom.2.sizing = f.sizing ∧ g.withRoom.2.sizing = g.sizing := by
    rw [PageFile.withRoom, PageFile.withRoom, hneeded, hgrown, h.capacity, h.host]
    split
    · exact ⟨rfl, h.capacity, h.length, h.behind, rfl, rfl⟩
    · split
      · exact ⟨rfl, h.capacity, h.length, h.behind, rfl, rfl⟩
      · split
        · split
          · exact ⟨rfl, rfl, hresized, hbehind, rfl, rfl⟩
          · exact ⟨rfl, rfl, hresized, hbehind, rfl, rfl⟩
        · exact ⟨rfl, h.capacity, h.length, h.behind, rfl, rfl⟩
  exact ⟨hanswer,
    { record := by rw [record_withRoom, record_withRoom, h.record]
      capacity := hcapacity
      length := hlength
      first := by rw [hfirst, hfirst', h.first]
      pages := fun p hp => hpages p (by rwa [record_withRoom] at hp)
      behind := fun i hi => hblocks i (by rwa [PageFile.pageCount, record_withRoom] at hi)
      left := hleft.trans h.left
      right := hright.trans h.right
      host := by rw [host_withRoom, host_withRoom, h.host] }⟩

/-- The next page lies behind all allocated ones. -/
theorem index_ne_nextPage {f : PageFile} {p : PageId} (hp : f.record.isAllocated p) :
    p.index ≠ f.nextPage.index := by
  rw [Metadata.isAllocated_iff] at hp
  rw [nextPage, PageId.index, PageId.index]
  simp only
  omega

/-- It is not page 0. -/
theorem index_nextPage_ne_zero {f : PageFile} (hpages : 1 ≤ f.record.pages.toInt) :
    f.nextPage.index ≠ 0 := by
  rw [nextPage, PageId.index]
  simp only
  omega

/-- **The next page is cleared alike.** -/
theorem SameShape.withClearedPage (h : SameShape sizing f g) (hpages : 1 ≤ f.record.pages.toInt) :
    SameShape sizing f.withClearedPage g.withClearedPage where
  record := h.record
  capacity := h.capacity
  length := h.length
  first := by
    have hplace := index_nextPage_ne_zero hpages
    rw [page_withClearedPage, page_withClearedPage, h.nextPage, if_neg hplace.symm, if_neg hplace.symm,
      h.first]
  pages p hp := by
    have hplace := index_ne_nextPage (f := f) hp
    rw [page_withClearedPage, page_withClearedPage, h.nextPage, if_neg hplace, if_neg hplace]
    exact h.pages p hp
  behind i hi := by
    rw [PageFile.withClearedPage, PageFile.withClearedPage, h.nextPage]
    exact FileImage.getElem?_setPage_congr (h.behind i hi) _ _
  left := h.left
  right := h.right
  host := h.host

/-- **A fresh page is added alike.** -/
theorem SameShape.withFreshPage (h : SameShape sizing f g) (hpages : 1 ≤ f.record.pages.toInt)
    (hfits : f.record.pages ≠ Int32.maxValue) :
    SameShape sizing f.withFreshPage g.withFreshPage := by
  have hcleared := h.withClearedPage hpages
  refine SameShape.storeRecord
    ⟨?_, h.capacity, h.length, hcleared.first, fun p hp => ?_, fun i hi => ?_, h.left, h.right, h.host⟩
  · simp only [h.record]
  · have hmore := Metadata.toInt_pages_add_one hfits
    rw [Metadata.isAllocated_iff] at hp
    simp only at hp
    by_cases hnew : p.val.toInt = f.record.pages.toInt
    · obtain rfl : p = f.nextPage := congrArg PageId.mk (Int32.toInt_inj.1 hnew)
      simp only [page_withClearedPage, h.nextPage, if_pos]
      exact .fresh _
    · refine hcleared.pages p ?_
      rw [record_withClearedPage, Metadata.isAllocated_iff]
      omega
  · refine hcleared.behind i (Nat.le_trans ?_ hi)
    have hmore := Metadata.toInt_pages_add_one hfits
    rw [PageFile.pageCount, PageFile.pageCount, Metadata.pageCount, Metadata.pageCount,
      record_withClearedPage]
    simp only
    omega

/-- **Two settled files of the same shape.** -/
structure Twins (sizing : Sizing) (f g : PageFile) : Prop where
  /-- The first is settled. -/
  left : f.Settled
  /-- So is the second. -/
  right : g.Settled
  /-- They have the same shape. -/
  shape : SameShape sizing f g

namespace Twins

theorem symm (h : Twins sizing f g) : Twins sizing g f :=
  ⟨h.right, h.left, h.shape.symm⟩

theorem trans (h : Twins sizing f g) (h' : Twins sizing g k) : Twins sizing f k :=
  ⟨h.left, h'.right, h.shape.trans h'.shape⟩

/-- Actions that keep files settled come to the same if they do so for the shape. -/
theorem matches_of_keeps {α β : Type} {S : α → β → Prop} {action : Action α} {action' : Action β}
    (hkeeps : Keeps Settled action) (hkeeps' : Keeps Settled action')
    (h : ∀ f g, Twins sizing f g →
      Paired (SameShape sizing) S (action.runOn f) (action'.runOn g)) :
    Matches (Twins sizing) S action action' := by
  intro f g hfg
  have hpaired := h f g hfg
  have hf := hkeeps f hfg.left
  have hg := hkeeps' g hfg.right
  generalize action.runOn f = outcome at hpaired hf ⊢
  generalize action'.runOn g = outcome' at hpaired hg ⊢
  cases hpaired with
  | ok hab hshape => exact .ok hab ⟨hf, hg, hshape⟩
  | error hshape => exact .error ⟨hf, hg, hshape⟩

/-- **Both files allocate the same page, or neither has room.** -/
theorem allocate : Matches (Twins sizing) Eq allocate allocate := by
  refine matches_of_keeps keeps_allocate_settled keeps_allocate_settled fun f g h => ?_
  obtain ⟨hanswer, hshape⟩ := h.shape.withRoom
  have hrecord := record_withRoom f
  have hone := ((Metadata.defect?_eq_none_iff f.record).1 h.left.inUse.sound).1
  rw [runOn_allocate, runOn_allocate, h.shape.record, h.shape.nextPage]
  rcases hf : f.withRoom with ⟨failure | ok, f'⟩
  all_goals
    rcases hg : g.withRoom with ⟨answer, g'⟩
    rw [hf, hg] at hanswer hshape
    obtain rfl := hanswer
  · exact .error hshape
  · rw [hf] at hrecord
    simp only
    split
    · exact .error (hshape.withClearedPage (by rwa [hrecord]))
    · rename_i hfits
      exact .ok rfl (hshape.withFreshPage (by rwa [hrecord]) (by rwa [hrecord]))

/-- **Nodes that differ in their slots are written alike.** -/
theorem writePage {n m : Node} (hnm : n.SameButSlots m) :
    Matches (Twins sizing) Eq (writePage n) (writePage m) := by
  refine matches_of_keeps (keeps_writePage_settled n) (keeps_writePage_settled m) fun f g h => ?_
  rw [runOn_writePage, runOn_writePage, h.shape.record, hnm.id, hnm.check]
  split
  · rename_i hid
    cases hcheck : n.check with
    | error e => exact .error h.shape
    | ok u => exact .ok rfl (h.shape.withNode hnm ((Node.check_eq_ok_iff n).1 hcheck) hid)
  · exact .error h.shape

/-- **The root is set alike.** -/
theorem setRoot (root : PageId) : Matches (Twins sizing) Eq (setRoot root) (setRoot root) := by
  refine matches_of_keeps (keeps_setRoot_settled root) (keeps_setRoot_settled root) fun f g h => ?_
  rw [runOn_setRoot, runOn_setRoot, h.shape.record]
  split
  · have hroot : SameShape sizing { f with record := { f.record with root := root }, dirty := true }
        { g with record := { g.record with root := root }, dirty := true } :=
      ⟨by simp only [h.shape.record], h.shape.capacity, h.shape.length, h.shape.first, h.shape.pages,
        h.shape.behind, h.shape.left, h.shape.right, h.shape.host⟩
    exact .ok rfl hroot.storeRecord
  · exact .error h.shape

/-- A page is read as nodes that differ in their slots. -/
theorem readPage (p : PageId) :
    Matches (Twins sizing) Node.SameButSlots (ask (·.readPage p)) (ask (·.readPage p)) := by
  intro f g h
  rw [runOn_ask, runOn_ask]
  rcases h.shape.readPage p with ⟨failure, hf, hg⟩ | ⟨n, m, hf, hg, hnm⟩
  · rw [hf, hg]
    exact .error h
  · rw [hf, hg]
    exact .ok hnm h

/-- So is a child. -/
theorem readChild (children : List PageId) (i : Nat) :
    Matches (Twins sizing) Node.SameButSlots (ask fun f => do f.readPage (← childAt children i))
      (ask fun f => do f.readPage (← childAt children i)) := by
  cases hchild : childAt children i with
  | error failure =>
    intro f g h
    rw [runOn_ask, runOn_ask]
    exact .error h
  | ok p => exact readPage p

/-! ## (5) Insertions into both files -/

/-- **A child is split alike.** -/
theorem splitChild {parent parent' child child' : Node} (hparent : parent.SameButSlots parent')
    (i : Nat) (hchild : child.SameButSlots child') :
    Matches (Twins sizing) Eq (splitChild parent i child) (splitChild parent' i child') := by
  refine matches_bind allocate fun sibling _ hsibling => ?_
  subst hsibling
  rcases hchild.split? sibling with ⟨hnone, hnone'⟩ | ⟨s, s', hs, hs', hleft, hseparator, hright⟩
  · rw [hnone, hnone']
    exact matches_throw _
  · rw [hs, hs']
    simp only
    rw [hseparator, hparent.withChild]
    refine matches_bind (writePage hleft) fun _ _ _ => ?_
    refine matches_bind (writePage hright) fun _ _ _ => ?_
    exact matches_bind (writePage (.refl _)) fun _ _ _ => matches_pure rfl

/-- **An entry is put below nodes that differ in their slots alike**, whatever its slot. -/
theorem insertBelow (key : Int32) (value value' : RowId) (fuel : Nat) {n m : Node}
    (h : n.SameButSlots m) :
    Matches (Twins sizing) Eq (insertBelow key value fuel n) (insertBelow key value' fuel m) := by
  induction fuel generalizing n m with
  | zero =>
    rw [PageFile.insertBelow.eq_def, PageFile.insertBelow.eq_def]
    cases h with
    | leaf hlen => exact writePage (Node.SameButSlots.withEntry (.leaf hlen) key value value')
    | internal => exact matches_throw _
  | succ fuel ih =>
    rw [PageFile.insertBelow.eq_def, PageFile.insertBelow.eq_def]
    cases h with
    | leaf hlen => exact writePage (Node.SameButSlots.withEntry (.leaf hlen) key value value')
    | internal =>
      refine matches_bind (readChild _ _) fun child child' hchild => ?_
      simp only [hchild.isFull]
      split
      · refine matches_bind (splitChild (.refl _) _ hchild) fun halves halves' hhalves => ?_
        subst hhalves
        exact matches_bind (readChild _ _) fun half half' hhalf => ih hhalf
      · exact ih hchild

/-- **An entry is put into both files alike**, whatever its slot. -/
theorem insertValue (key : Int32) (value value' : RowId) :
    Matches (Twins sizing) Eq (insertValue key value) (insertValue key value') := by
  refine matches_get_bind fun f g h => ?_
  have hroot : g.root = f.root := congrArg Metadata.root h.shape.record
  have hcount : g.pageCount = f.pageCount := congrArg Metadata.pageCount h.shape.record
  rw [hroot, hcount]
  split
  · refine matches_bind (readPage _) fun n m hnm => ?_
    simp only [hnm.isFull]
    split
    · refine matches_bind allocate fun id _ hid => ?_
      subst hid
      refine matches_bind (splitChild (.refl _) 0 hnm) fun halves halves' hhalves => ?_
      subst hhalves
      exact matches_bind (setRoot id) fun _ _ _ => insertBelow key value value' _ (.refl _)
    · exact insertBelow key value value' _ hnm
  · refine matches_bind allocate fun id _ hid => ?_
    subst hid
    exact matches_bind (writePage (.leaf rfl)) fun _ _ _ => setRoot id

/-! ## (6) Other calls on one of the files -/

/-- **A page with its slots cleared keeps the shape.** -/
theorem withNode_clear (h : Twins sizing f g) {p : PageId} {m : Node} (hm : g.readPage p = .ok m)
    {targets : List RowId} (hcount : m.countOf targets ≠ 0) :
    SameShape sizing f (g.withNode (m.clear targets)) := by
  obtain ⟨hpg, hdecode, hmid⟩ := readPage_eq_ok_iff.1 hm
  have hp : f.record.isAllocated p := by rwa [← h.shape.record]
  have hid : (m.clear targets).id = p := (m.id_clear targets).trans hmid
  have hplace := (Metadata.index_of_isAllocated hp).1
  refine ⟨h.shape.record, h.shape.capacity, h.shape.length, ?_, fun q hq => ?_, fun i hi => ?_,
    h.shape.left, h.shape.right, h.shape.host⟩
  · rw [page_withNode, hid, if_neg (by omega), h.shape.first]
  · rw [page_withNode, hid]
    by_cases hindex : q.index = p.index
    · obtain rfl := Metadata.eq_of_index_eq hq hp hindex
      rw [if_pos rfl]
      obtain ⟨n, m', hn, hm', hnid, hsame, hpages⟩ := h.shape.pages q hq
      obtain rfl := Except.ok.inj (hdecode.symm.trans hm')
      -- the page holds slots, so it is the page of its node
      have hpage : f.image.page q.index = n.image := by
        rcases hpages with ⟨heq, hbare⟩ | ⟨hpage, -⟩
        · rw [heq, hdecode] at hn
          obtain rfl := Except.ok.inj hn
          rw [Node.countOf, hbare] at hcount
          exact absurd rfl hcount
        · exact hpage
      rw [hpage, ← hnid]
      exact .image (Node.defect?_of_decode hn) (hsame.trans (.clear m targets))
    · rw [if_neg hindex]
      exact h.shape.pages q hq
  · have hcounted := (Metadata.index_of_isAllocated hp).2
    rw [PageFile.withNode, hid,
      FileImage.getElem?_setPage_of_ne _ _ (Nat.ne_of_lt (Nat.lt_of_lt_of_le hcounted hi))]
    exact h.shape.behind i hi

/-- **Clearing slots on a row of pages keeps the shape.** -/
theorem clearFrom (h : Twins sizing f g) (targets : List RowId) (count i cleared : Nat) :
    Twins sizing f ((clearFrom targets count i cleared).runOn g).2 := by
  induction count generalizing i cleared g with
  | zero => exact h
  | succ count ih =>
    cases hm : g.readPage (PageId.ofIndex i) with
    | error failure =>
      rw [PageFile.clearFrom, Action.runOn_bind, Action.runOn_ask, hm]
      exact h
    | ok m =>
      rw [runOn_clearFrom_succ targets hm]
      refine ih ?_ _ _
      rw [clearedAt]
      split
      · rename_i hcount
        have hsettled := keeps_writePage_settled (m.clear targets) g h.right
        rw [runOn_writePage_of_fits (isAllocated_clear targets hm)
          (Node.defect?_clear (defect?_of_readPage hm) targets)] at hsettled
        exact ⟨h.left, hsettled, h.withNode_clear hm hcount⟩
      · exact h

/-- **A deletion keeps the shape.** -/
theorem deleteValues (h : Twins sizing f g) (texts : List String) :
    Twins sizing f ((deleteValues texts).runOn g).2 := by
  rw [PageFile.deleteValues]
  split
  · exact h
  · rw [Action.runOn_bind, Action.runOn_get]
    exact h.clearFrom _ _ _ _

/-- Saving keeps the shape: the record is in page 0 already. -/
theorem flush (h : Twins sizing f g) : Twins sizing f (flush.runOn g).2 := by
  refine ⟨h.left, keeps_flush_settled g h.right, ?_⟩
  have hsame := h.right.stamped.image_storeRecord
  rw [runOn_flush]
  split
  · exact h.shape.of_image rfl rfl hsame rfl rfl
  · exact h.shape.of_image rfl rfl hsame rfl rfl

/-- Letting go of a file keeps the shape. -/
theorem leftBehind (h : Twins sizing f g) (saved : Bool) : Twins sizing f (g.leftBehind saved) where
  left := h.left
  right := h.right.leftBehind saved
  shape := by
    have hsame := h.right.stamped.image_leftBehind saved
    refine h.shape.of_image (record_leftBehind g saved) ?_ hsame ?_ ?_
    all_goals
      rw [PageFile.leftBehind, released]
      split
      · rfl
      · split <;> rfl

/-- **Opening a file again with the same sizing keeps the shape.** -/
theorem reopened (h : Twins sizing f g) (saved : Bool) :
    Twins sizing f (g.call (.reopen saved sizing)).2 := by
  by_cases hlength : g.host.maps g.image.length
  · rw [PageFile.call, h.right.openImage_leftBehind hlength]
    exact ⟨h.left, h.right.reopened hlength g.path sizing,
      h.shape.of_image rfl rfl rfl h.shape.right.symm rfl⟩
  · -- the file cannot be mapped again
    rw [PageFile.call]
    split
    · rename_i k hopen
      have hmapped := (openImage_eq_ok_iff.1 hopen).2.1
      rw [length_image_leftBehind] at hmapped
      exact absurd hmapped hlength
    · exact h.leftBehind saved

end Twins

end PageFile

/-! ## (7) Runs of calls -/

/-- The key that a call inserts, none for other calls. -/
def Call.key? : Call → Option Int32
  | .insert key _ => some key
  | _ => none

/-- **The keys that a run of calls inserts**, in their order. -/
def keysOf (calls : List Call) : List Int32 :=
  calls.filterMap Call.key?

namespace PageFile

open RowIndex.Action

variable {f g : PageFile} {sizing : Sizing}

namespace Twins

/-- **An insertion into both files**, of any texts under one key. -/
theorem insert (h : Twins sizing f g) (key : Int32) (text text' : String) :
    Twins sizing (f.call (.insert key text)).2 (g.call (.insert key text')).2 :=
  (insertValue key (RowId.ofText text) (RowId.ofText text') f g h).files

/-- **Any other call on one of the files.** -/
theorem idle (h : Twins sizing f g) {c : Call} (hkey : c.key? = none)
    (hsizing : ∀ saved s, c = .reopen saved s → s = sizing) : Twins sizing f (g.call c).2 := by
  cases c with
  | insert key text => cases hkey
  | deleteValues texts => exact h.deleteValues texts
  | save => exact h.flush
  | reopen saved s =>
    obtain rfl := hsizing saved s rfl
    exact h.reopened saved

/-- **A run has the shape of one that inserts its keys and does nothing else.** -/
theorem afterCalls (h : Twins sizing f g) {calls : List Call}
    (hsizing : ∀ saved s, Call.reopen saved s ∈ calls → s = sizing) :
    Twins sizing (f.afterCalls calls)
      (g.afterCalls ((keysOf calls).map fun key => .insert key "")) := by
  induction calls generalizing f g with
  | nil => exact h
  | cons c calls ih =>
    have hrest : ∀ saved s, Call.reopen saved s ∈ calls → s = sizing := fun saved s hmem =>
      hsizing saved s (List.mem_cons_of_mem _ hmem)
    cases hkey : c.key? with
    | none =>
      have hidle := h.symm.idle hkey fun saved s hc => hsizing saved s (hc ▸ List.mem_cons_self)
      rw [afterCalls_cons, keysOf, List.filterMap_cons_none hkey]
      exact ih hidle.symm hrest
    | some key =>
      obtain ⟨text, rfl⟩ : ∃ text, c = .insert key text := by
        cases c with
        | insert k text => exact ⟨text, by rw [Option.some.inj hkey]⟩
        | deleteValues texts => cases hkey
        | save => cases hkey
        | reopen saved s => cases hkey
      rw [afterCalls_cons, keysOf, List.filterMap_cons_some hkey, List.map_cons, afterCalls_cons]
      exact ih (h.insert key text "") hrest

end Twins

/-- Two new files of one sizing, on one system. -/
theorem twins_create {host : Host} {path path' : String} (h : create host path sizing = .ok f)
    (h' : create host path' sizing = .ok g) : Twins sizing f g := by
  refine ⟨settled_create h, settled_create h', ?_⟩
  obtain ⟨-, rfl⟩ := create_eq_ok_iff.1 h
  obtain ⟨-, rfl⟩ := create_eq_ok_iff.1 h'
  refine ⟨rfl, rfl, rfl, rfl, fun p hp => ?_, fun _ _ => rfl, rfl, rfl, rfl⟩
  -- no page is allocated yet
  have hpages : Metadata.empty.pages.toInt = 1 := by decide
  have hplace := (Metadata.isAllocated_iff Metadata.empty p).1 hp
  omega

/-- **The shape of the tree depends on the inserted keys only.** Take two runs of calls on new indexes of
one sizing that insert the same keys in the same order, with any texts, and with any deletions, saves
and reopenings in between. At their ends the root, the page count, the capacity, the length and all of
page 0 are the same. Every allocated page reads as nodes with the same kind, keys, children and next
leaf, and has the same bytes outside the slots. -/
theorem shape_of_keys {host : Host} {path path' : String} {f' g' : PageFile}
    {calls calls' : List Call} (hcreate : create host path sizing = .ok f)
    (hcreate' : create host path' sizing = .ok f')
    (hsizing : ∀ saved s, Call.reopen saved s ∈ calls ++ calls' → s = sizing)
    (hkeys : keysOf calls = keysOf calls') (hrun : f.afterCalls calls = g)
    (hrun' : f'.afterCalls calls' = g') :
    g'.root = g.root ∧ g'.record.pages = g.record.pages ∧ g'.capacity = g.capacity ∧
    g'.image.length = g.image.length ∧ g'.image.page 0 = g.image.page 0 ∧
    ∀ p, g.record.isAllocated p → ∃ n n', g.readPage p = .ok n ∧ g'.readPage p = .ok n' ∧
      n.SameButSlots n' ∧ ∀ i, ¬ n.InSlot i →
        Bytes.byteAt (g'.image.page p.index).bytes i = Bytes.byteAt (g.image.page p.index).bytes i := by
  have hleft := (twins_create hcreate hcreate).afterCalls fun saved s hmem =>
    hsizing saved s (List.mem_append_left calls' hmem)
  have hright := (twins_create hcreate hcreate').symm.afterCalls fun saved s hmem =>
    hsizing saved s (List.mem_append_right calls hmem)
  -- both runs have the shape of the one that only inserts the keys
  rw [hrun, hkeys] at hleft
  rw [hrun'] at hright
  have hshape := (hleft.trans hright.symm).shape
  refine ⟨congrArg Metadata.root hshape.record, congrArg Metadata.pages hshape.record,
    hshape.capacity, hshape.length, hshape.first, fun p hp => ?_⟩
  obtain ⟨n, m, hn, hm, hid, hsame, hpages⟩ := hshape.pages p hp
  refine ⟨n, m, readPage_eq_ok_iff.2 ⟨hp, hn, hid⟩,
    readPage_eq_ok_iff.2 ⟨by rwa [hshape.record], hm, hsame.id.trans hid⟩, hsame, fun i hi => ?_⟩
  rcases hpages with ⟨heq, -⟩ | ⟨hpage, hpage'⟩
  · rw [heq]
  · rw [hpage, hpage']
    exact hsame.byteAt_image (Node.defect?_of_decode hn) hi

/-- A run that deletes what it inserts. -/
def forgetfulRun : List Call :=
  [.insert 7 "seven", .deleteValues ["seven"], .insert 7 "eight"]

/-- A run that inserts the same keys and opens the file again. -/
def interruptedInsertions : List Call :=
  [.insert 7 "", .save, .reopen false .default, .insert 7 "nine"]

theorem shape_of_keys_newFile :
    keysOf forgetfulRun = keysOf interruptedInsertions ∧
      (newFile.afterCalls interruptedInsertions).root = (newFile.afterCalls forgetfulRun).root ∧
      (newFile.afterCalls interruptedInsertions).image.page 0
        = (newFile.afterCalls forgetfulRun).image.page 0 := by
  have hsizing : ∀ saved s, Call.reopen saved s ∈ forgetfulRun ++ interruptedInsertions →
      s = .default := by
    intro saved s hmem
    simp only [forgetfulRun, interruptedInsertions, List.cons_append, List.nil_append, List.mem_cons,
      reduceCtorEq, false_or, Call.reopen.injEq, List.not_mem_nil, or_false] at hmem
    exact hmem.2
  have hkeys : keysOf forgetfulRun = keysOf interruptedInsertions := rfl
  obtain ⟨hroot, -, -, -, hfirst, -⟩ :=
    shape_of_keys create_newFile create_newFile hsizing hkeys rfl rfl
  exact ⟨hkeys, hroot, hfirst⟩

end PageFile

end RowIndex
