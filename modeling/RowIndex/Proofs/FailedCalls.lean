import RowIndex.Proofs.FailedInsertions
import RowIndex.Proofs.Reopening
import RowIndex.Session.Basic

/-! # Failed calls leave no trace

What is refused is refused before anything is changed, so a call that failed might as well not have been
made. A file that could not be set up is removed again.

* **`PageFile.refusal?`** — why a call on the pages is refused at once; `pageCall_of_refusal?` says that
  nothing is changed by it, and `refusal?_of_failed` that writes and roots fail in no other way.
* **`PageFile.refusal?_of_not_sets`** — an allocation is refused at once when the new length cannot be
  set, and `refusal?_of_failed_allocate` says in which other ways it fails.
* **`PageFile.accepted`** — a run of events without the refused ones; `answersTo_accepted` and
  `afterEvents_accepted` say that leaving them out goes unseen.
* **`Directory.createStepwise`** — how a file is created, with all that happens on the way;
  `createStepwise_eq` says that a failure leaves the directory as it was.
* **`failed_calls_leave_no_trace`** — the two together, and files that cannot be opened. -/

namespace RowIndex

open RowIndex.Action

namespace PageFile

variable {f : PageFile}

/-! ## (1) One call -/

/-- **Why a call on the pages is refused**, before anything is changed: the file would have to grow to a
length that does not fit in its word or that the system does not set, a node's page is not allocated, a
node does not fit in its page, or a page that shall be the root is not allocated. -/
def refusal? (f : PageFile) : PageCall → Option Failure
  | .allocate =>
    if f.neededLength ≤ f.capacity then none
    else if UInt64.size ≤ f.grownLength then some (.fault .lengthOverflow)
    else if f.host.writes f.capacity ∧ f.host.sets f.grownLength then none
    else some (.error .io)
  | .write node =>
    if f.record.isAllocated node.id then
      node.defect?.map fun defect => .error (.corruptPage node.id defect)
    else some (.error (.pageOutOfRange node.id f.record.pages))
  | .setRoot root =>
    if root = .none ∨ f.record.isAllocated root then none
    else some (.error (.pageOutOfRange root f.record.pages))
  | .flush | .reopen _ _ => none

/-- A file that cannot be made longer is not grown. -/
theorem runOn_allocate_of_refusal? {failure : Failure} (h : f.refusal? .allocate = some failure) :
    allocate.runOn f = (.error failure, f) := by
  rw [refusal?] at h
  rw [runOn_allocate, withRoom]
  by_cases hneeded : f.neededLength ≤ f.capacity
  · rw [if_pos hneeded] at h
    cases h
  rw [if_neg hneeded] at h ⊢
  by_cases hlength : UInt64.size ≤ f.grownLength
  · rw [if_pos hlength] at h ⊢
    cases h
    rfl
  rw [if_neg hlength] at h ⊢
  by_cases hset : f.host.writes f.capacity ∧ f.host.sets f.grownLength
  · rw [if_pos hset] at h
    cases h
  · rw [if_neg hset] at h ⊢
    cases h
    rfl

/-- **Where the new length cannot be set**, an allocation is refused. -/
theorem refusal?_of_not_sets (hneeded : f.capacity < f.neededLength)
    (hlength : f.grownLength < UInt64.size) (hset : ¬ f.host.sets f.grownLength) :
    f.refusal? .allocate = some (.error .io) := by
  rw [refusal?, if_neg (Nat.not_le.2 hneeded), if_neg (Nat.not_le.2 hlength), if_neg fun h => hset h.2]

/-- **An allocation that is not refused fails** only when no further page can be counted, or when the new
length was set and cannot be mapped. -/
theorem refusal?_of_failed_allocate {failure : Failure}
    (h : (f.pageCall .allocate).1 = .error failure) :
    f.refusal? .allocate = some failure ∨ f.record.pages = Int32.maxValue ∨
      f.capacity < f.neededLength ∧ ¬ f.host.maps f.grownLength := by
  by_cases hlast : f.record.pages = Int32.maxValue
  · exact Or.inr (Or.inl hlast)
  rw [or_iff_right hlast]
  by_cases hneeded : f.neededLength ≤ f.capacity
  · rw [pageCall, runOn_allocate_of_room hlast hneeded] at h
    cases h
  by_cases hmaps : f.host.maps f.grownLength
  · left
    cases hrefused : f.refusal? .allocate with
    | some failure' =>
      rw [pageCall, runOn_allocate_of_refusal? hrefused] at h
      exact congrArg some (Except.error.inj h)
    | none =>
      -- nothing stands in the way of the growth
      obtain ⟨p, g, hrun⟩ : ∃ p g, allocate.runOn f = (.ok p, g) := by
        rw [← feasible_allocate_iff]
        rw [refusal?, if_neg hneeded] at hrefused
        split at hrefused
        · cases hrefused
        · rename_i hlength
          split at hrefused
          · rename_i hset
            exact ⟨hlast, Or.inr ⟨Nat.lt_of_not_le hlength, Host.lengthens_iff.2 ⟨hset, hmaps⟩⟩⟩
          · cases hrefused
      rw [pageCall, hrun] at h
      cases h
  · exact Or.inr ⟨Nat.lt_of_not_le hneeded, hmaps⟩

/-- **A refused write leaves the file as it was**, and no other write fails. -/
theorem runOn_writePage_error_iff {node : Node} {failure : Failure} {g : PageFile} :
    (writePage node).runOn f = (.error failure, g) ↔
      f.refusal? (.write node) = some failure ∧ g = f := by
  rw [runOn_writePage, refusal?, Node.check]
  split
  · cases node.defect? with
    | none => exact iff_of_false (fun h => by cases h) fun h => by cases h.1
    | some defect =>
      simp only [Option.map_some, Prod.mk.injEq, Except.error.injEq, Option.some.injEq]
      exact and_congr_right fun _ => eq_comm
  · simp only [Prod.mk.injEq, Except.error.injEq, Option.some.injEq]
    exact and_congr_right fun _ => eq_comm

/-- **A refused root leaves the file as it was**, and no other root fails. -/
theorem runOn_setRoot_error_iff {root : PageId} {failure : Failure} {g : PageFile} :
    (setRoot root).runOn f = (.error failure, g) ↔
      f.refusal? (.setRoot root) = some failure ∧ g = f := by
  rw [runOn_setRoot, refusal?]
  split
  · exact iff_of_false (fun h => by cases h) fun h => by cases h.1
  · simp only [Prod.mk.injEq, Except.error.injEq, Option.some.injEq]
    exact and_congr_right fun _ => eq_comm

/-- **A refused call leaves the whole file as it was**: its bytes, its length, the record in force, and
what waits for a flush. -/
theorem pageCall_of_refusal? {c : PageCall} {failure : Failure} (h : f.refusal? c = some failure) :
    f.pageCall c = (.error failure, f) := by
  cases c with
  | allocate =>
    rw [pageCall, runOn_allocate_of_refusal? h]
    rfl
  | write node =>
    rw [pageCall, runOn_writePage_error_iff.2 ⟨h, rfl⟩]
    rfl
  | setRoot root =>
    rw [pageCall, runOn_setRoot_error_iff.2 ⟨h, rfl⟩]
    rfl
  | flush => cases h
  | reopen saved sizing => cases h

example : newFile.pageCall (.setRoot ⟨5⟩) = (.error (.error (.pageOutOfRange ⟨5⟩ 1)), newFile) :=
  pageCall_of_refusal? rfl

/-- **Writes and roots fail in no other way.** -/
theorem refusal?_of_failed {c : PageCall} {failure : Failure}
    (hc : (∃ node, c = .write node) ∨ ∃ root, c = .setRoot root)
    (h : (f.pageCall c).1 = .error failure) : f.refusal? c = some failure := by
  rcases hc with ⟨node, rfl⟩ | ⟨root, rfl⟩
  · rw [pageCall] at h
    rcases hrun : (writePage node).runOn f with ⟨result | ok, g⟩ <;> rw [hrun] at h <;> cases h
    exact (runOn_writePage_error_iff.1 hrun).1
  · rw [pageCall] at h
    rcases hrun : (setRoot root).runOn f with ⟨result | ok, g⟩ <;> rw [hrun] at h <;> cases h
    exact (runOn_setRoot_error_iff.1 hrun).1

end PageFile

/-! ## (2) Runs -/

/-- The call on the pages that an event starts with, if it does nothing else when that is refused. -/
def Event.pageCall? : Event → Option PageCall
  | .ask _ (.allocate (_ + 1)) => some .allocate
  | .ask _ (.writePage node) => some (.write node)
  | .ask _ (.setRoot root) => some (.setRoot root)
  | _ => none

namespace PageFile

variable {f : PageFile}

/-- **Whether an event is refused at once.** -/
def refuses (f : PageFile) (e : Event) : Bool :=
  (e.pageCall?.bind f.refusal?).isSome

/-- **A refused event leaves the file as it was.** -/
theorem reopening_of_refuses {e : Event} (h : f.refuses e) : (f.reopening e).2 = f := by
  rw [refuses, Option.isSome_iff_exists] at h
  obtain ⟨failure, h⟩ := h
  obtain ⟨c, hc, hrefused⟩ := Option.bind_eq_some_iff.1 h
  match e, hc with
  | .ask access (.allocate (count + 1)), hc =>
    cases hc
    rw [reopening, Request.perform, allocateMany, allocateFrom, runOn_allocate_of_refusal? hrefused]
  | .ask access (.writePage node), hc =>
    cases hc
    rw [reopening, Request.perform, acted, runOn_writePage_error_iff.2 ⟨hrefused, rfl⟩]
  | .ask access (.setRoot root), hc =>
    cases hc
    rw [reopening, Request.perform, acted, runOn_setRoot_error_iff.2 ⟨hrefused, rfl⟩]

/-- **A run of events without the refused ones.** -/
def accepted (f : PageFile) : List Event → List Event
  | [] => []
  | e :: events =>
    if f.refuses e then (f.reopening e).2.accepted events
    else e :: (f.reopening e).2.accepted events

/-- **The answers in a run of events, without those to the refused ones.** -/
def acceptedAnswers (f : PageFile) : List Event → List (Except Failure Answer)
  | [] => []
  | e :: events =>
    if f.refuses e then (f.reopening e).2.acceptedAnswers events
    else (f.reopening e).1 :: (f.reopening e).2.acceptedAnswers events

/-- **Leaving out what is refused changes nothing at the end.** -/
theorem afterEvents_accepted (f : PageFile) (events : List Event) :
    afterEvents reopening f (f.accepted events) = afterEvents reopening f events := by
  induction events generalizing f with
  | nil => rfl
  | cons e events ih =>
    rw [accepted]
    split
    · rename_i hrefused
      have hsame := reopening_of_refuses hrefused
      rw [afterEvents_cons, hsame, ih]
    · rw [afterEvents_cons, afterEvents_cons, ih]

/-- **Leaving out what is refused changes no other answer.** -/
theorem answersTo_accepted (f : PageFile) (events : List Event) :
    answersTo reopening f (f.accepted events) = f.acceptedAnswers events := by
  induction events generalizing f with
  | nil => rfl
  | cons e events ih =>
    rw [accepted, acceptedAnswers]
    split
    · rename_i hrefused
      have hsame := reopening_of_refuses hrefused
      rw [hsame, ih]
    · rw [answersTo, ih]

end PageFile

/-! ## (3) Creating a file step by step -/

namespace Table

variable {α β : Type} [DecidableEq α]

theorem erase_of_find?_eq_none {t : Table α β} {k : α} (h : t.find? k = none) : t.erase k = t := by
  induction t with
  | nil => rfl
  | cons entry rest ih =>
    obtain ⟨key, value⟩ := entry
    rw [find?_cons] at h
    split at h
    · cases h
    · rename_i hkey
      rw [erase, if_neg hkey, ih h]

/-- What was put is gone when it is erased. -/
theorem erase_put (t : Table α β) (k : α) (value : β) : (t.put k value).erase k = t.erase k := by
  rw [put, erase, if_pos rfl]
  exact erase_of_find?_eq_none (by rw [find?_erase, if_pos rfl])

/-- Only what was put last counts. -/
theorem put_put (t : Table α β) (k : α) (value value' : β) :
    (t.put k value).put k value' = t.put k value' := by
  rw [put, erase_put]
  rfl

end Table

/-- **Sets up a file that was just made**: its length is set, it is mapped, page 0 gets the record of an
empty tree, and the file is flushed. With the result comes the content as far as it got. -/
def PageFile.setUp (host : Host) (path : String) (sizing : Sizing) (image : FileImage) :
    Except Failure PageFile × FileImage :=
  let length := max sizing.initialSize.toNat Layout.pageSize
  if host.sets length then
    let sized := image.resize length
    if host.maps length then
      let f : PageFile :=
        { path := path
          image := sized
          capacity := length
          record := Metadata.empty
          sizing := sizing
          host := host
          dirty := true }
      let (result, g) := flush.runOn f
      (result.map fun _ => g, g.image)
    else (.error (.error .io), sized)
  else (.error (.error .io), image)

/-- What setting up an empty file comes to. -/
theorem PageFile.setUp_empty (host : Host) (path : String) (sizing : Sizing) :
    (∃ f, setUp host path sizing FileImage.empty = (.ok f, f.image) ∧
      create host path sizing = .ok f) ∨
      ∃ image failure, setUp host path sizing FileImage.empty = (.error failure, image) ∧
        create host path sizing = .error failure := by
  rw [setUp, create, Host.makes]
  simp only [runOn_flush]
  by_cases hset : host.sets (max sizing.initialSize.toNat Layout.pageSize)
  swap
  · exact .inr ⟨_, _, by rw [if_neg hset], by simp [hset]⟩
  by_cases hmaps : host.maps (max sizing.initialSize.toNat Layout.pageSize)
  swap
  · exact .inr ⟨_, _, by rw [if_pos hset, if_neg hmaps], by simp [hmaps]⟩
  by_cases hsaves : host.saves (max sizing.initialSize.toNat Layout.pageSize)
  swap
  · exact .inr ⟨_, _, by rw [if_pos hset, if_pos hmaps, if_neg hsaves]; rfl, by simp [hsaves]⟩
  exact .inl ⟨_, by rw [if_pos hset, if_pos hmaps, if_pos hsaves]; rfl, by simp [hset, hmaps, hsaves]⟩

namespace Directory

open PageFile

/-- **Creates an index file step by step.** An empty file is made where nothing is yet, and set up; if
that fails, it is removed. -/
def createStepwise (d : Directory) (host : Host) (path : String) (sizing : Sizing) :
    Except Failure Opened × Directory :=
  match d.place path with
  | .entry name =>
    if (d.find? name).isSome then (.error (.error (.indexFileExists path)), d)
    else
      let made := d.put name FileImage.empty
      match setUp host path sizing FileImage.empty with
      | (.ok file, image) => (.ok ⟨file, name, made.put name image⟩, made.put name image)
      | (.error failure, image) => (.error failure, (made.put name image).erase name)
  | .folder => (.error (.error (.indexFileExists path)), d)
  | .nowhere | .belowFile | .unusable => (.error (.error .io), d)

/-- **Creation step by step** has the outcome of creation at once, and a failure leaves the directory as it
was. -/
theorem createStepwise_eq (d : Directory) (host : Host) (path : String) (sizing : Sizing) :
    d.createStepwise host path sizing =
      match d.create host path sizing with
      | .ok opened => (.ok opened, opened.directory)
      | .error failure => (.error failure, d) := by
  rw [createStepwise, create]
  cases d.place path with
  | entry name =>
    simp only
    split
    · rfl
    · rename_i hfree
      have hfree : d.files.find? name = none := Option.not_isSome_iff_eq_none.1 hfree
      rcases setUp_empty host path sizing with
        ⟨f, hsetUp, hcreate⟩ | ⟨image, failure, hsetUp, hcreate⟩
      · rw [hsetUp, hcreate]
        have hput : (d.put name FileImage.empty).put name f.image = d.put name f.image :=
          congrArg Directory.mk (Table.put_put d.files name _ _)
        simp only [hput]
        rfl
      · rw [hsetUp, hcreate]
        -- what was put there is removed, whatever it had become
        have herase : ((d.put name FileImage.empty).put name image).erase name = d := by
          refine congrArg Directory.mk ?_
          exact (Table.erase_put _ name image).trans ((Table.erase_put _ name _).trans
            (Table.erase_of_find?_eq_none hfree))
        simp only [herase]
        rfl
  | folder => rfl
  | nowhere => rfl
  | belowFile => rfl
  | unusable => rfl

variable {d : Directory} {host : Host} {path name : String} {sizing : Sizing}

/-- **Where something is, nothing is created.** -/
theorem create_of_isOccupied (h : d.isOccupied path) :
    d.create host path sizing = .error (.error (.indexFileExists path)) := by
  rw [isOccupied] at h
  rw [create]
  cases hplace : d.place path with
  | entry name =>
    rw [hplace] at h
    exact if_pos h
  | folder => rfl
  | nowhere => rw [hplace] at h; cases h
  | belowFile => rw [hplace] at h; cases h
  | unusable => rw [hplace] at h; cases h

/-- Where an entry is free, a file is created just as the system makes one. -/
theorem create_of_free (hplace : d.place path = .entry name) (hfree : d.find? name = none)
    (host : Host) (sizing : Sizing) :
    d.create host path sizing =
      (PageFile.create host path sizing).map fun file => ⟨file, name, d.put name file.image⟩ := by
  rw [create, hplace]
  simp only [hfree, Option.isSome_none]
  rw [if_neg Bool.false_ne_true]
  cases PageFile.create host path sizing <;> rfl

/-- **Where an entry is free and the sizes are workable, a file can be created**, also by opening it. -/
theorem exists_create_of_free (hplace : d.place path = .entry name) (hfree : d.find? name = none)
    (hsize : host.makes (max sizing.initialSize.toNat Layout.pageSize)) :
    ∃ opened, d.createStepwise host path sizing = (.ok opened, opened.directory) ∧
      d.loadOrCreate host path sizing = .ok opened := by
  have hcreate := create_of_free hplace hfree host sizing
  rw [PageFile.create_eq_ok_iff.2 ⟨hsize, rfl⟩] at hcreate
  refine ⟨_, by rw [createStepwise_eq, hcreate]; rfl, ?_⟩
  rw [loadOrCreate, isOccupied, hplace]
  simp only [hfree, Option.isSome_none]
  rw [if_neg Bool.false_ne_true]
  exact hcreate

/-- **Where the sizes are not workable, no file is left behind.** -/
theorem createStepwise_of_not_makes (hplace : d.place path = .entry name)
    (hfree : d.find? name = none)
    (hsize : ¬ host.makes (max sizing.initialSize.toNat Layout.pageSize)) :
    d.createStepwise host path sizing = (.error (.error .io), d) := by
  have hcreate := create_of_free hplace hfree host sizing
  rw [PageFile.create] at hcreate
  simp only [if_neg hsize] at hcreate
  rw [createStepwise_eq, hcreate]
  rfl

end Directory

namespace Session

/-- **An opening that fails changes nothing** but that the handle is free now. -/
theorem openFile_of_error {s : Session} {handle : String} {access : Access} {mode : OpenMode}
    {path : String} {sizing : Sizing} {refusal : Refusal}
    (h : (s.openFile handle access mode path sizing).1 = .error refusal) :
    (s.openFile handle access mode path sizing).2 = s.dropHandle handle := by
  unfold openFile at h ⊢
  simp only at h ⊢
  split
  · rfl
  · rename_i hopened
    rw [hopened] at h
    cases h

theorem dropHandle_of_free {s : Session} {handle : String} (h : s.handles.find? handle = none) :
    s.dropHandle handle = s := by
  rw [dropHandle, h]

end Session

/-! ## (4) Failed calls -/

/-- **Failed calls leave no trace.** A call on the pages of a file that is refused leaves the whole file as
it was; and so does every write and every change of the root that fails, and every allocation for which
the new length cannot be set. An allocation that fails otherwise has no number for another page, or could
not map the new length. In a run of events all that is refused can be left out: the other answers and the
file at the end are the same. A creation that fails leaves the directory as it was: where something is,
nothing is created, and sizes that do not work leave no file behind, so that the path can be used with
sizes that do. An opening that fails, in whatever way and for whatever reason, does no more than letting
go of what its handle stood for, and nothing if that was nothing. -/
theorem failed_calls_leave_no_trace (f : PageFile) (host : Host) (d : Directory) (s : Session) :
    (∀ c failure, f.refusal? c = some failure → f.pageCall c = (.error failure, f)) ∧
    (f.capacity < f.neededLength → f.grownLength < UInt64.size → ¬ f.host.sets f.grownLength →
      f.refusal? .allocate = some (.error .io)) ∧
    (∀ failure, (f.pageCall .allocate).1 = .error failure →
      f.refusal? .allocate = some failure ∨ f.record.pages = Int32.maxValue ∨
        f.capacity < f.neededLength ∧ ¬ f.host.maps f.grownLength) ∧
    (∀ node failure, (f.pageCall (.write node)).1 = .error failure →
      f.refusal? (.write node) = some failure) ∧
    (∀ root failure, (f.pageCall (.setRoot root)).1 = .error failure →
      f.refusal? (.setRoot root) = some failure) ∧
    (∀ events, PageFile.answersTo PageFile.reopening f (f.accepted events) = f.acceptedAnswers events ∧
      PageFile.afterEvents PageFile.reopening f (f.accepted events)
        = PageFile.afterEvents PageFile.reopening f events) ∧
    (∀ path sizing failure, (d.createStepwise host path sizing).1 = .error failure →
      (d.createStepwise host path sizing).2 = d) ∧
    (∀ path sizing, d.isOccupied path →
      d.createStepwise host path sizing = (.error (.error (.indexFileExists path)), d)) ∧
    (∀ path name sizing, d.place path = .entry name → d.find? name = none →
      ¬ host.makes (max sizing.initialSize.toNat Layout.pageSize) →
        d.createStepwise host path sizing = (.error (.error .io), d) ∧
        ∀ host' sizing', Host.makes host' (max sizing'.initialSize.toNat Layout.pageSize) →
          ∃ opened, d.createStepwise host' path sizing' = (.ok opened, opened.directory) ∧
            d.loadOrCreate host' path sizing' = .ok opened) ∧
    (∀ handle access mode path sizing refusal,
      (s.openFile handle access mode path sizing).1 = .error refusal →
        (s.openFile handle access mode path sizing).2 = s.dropHandle handle) ∧
    ∀ handle, s.handles.find? handle = none → s.dropHandle handle = s := by
  refine ⟨fun c failure => PageFile.pageCall_of_refusal?, PageFile.refusal?_of_not_sets,
    fun failure => PageFile.refusal?_of_failed_allocate,
    fun node failure => PageFile.refusal?_of_failed (.inl ⟨node, rfl⟩),
    fun root failure => PageFile.refusal?_of_failed (.inr ⟨root, rfl⟩),
    fun events => ⟨f.answersTo_accepted events, f.afterEvents_accepted events⟩, ?_, ?_, ?_,
    fun handle access mode path sizing refusal => Session.openFile_of_error,
    fun handle => Session.dropHandle_of_free⟩
  · intro path sizing failure hfailed
    rw [Directory.createStepwise_eq] at hfailed ⊢
    cases hcreate : d.create host path sizing with
    | error failure' => rfl
    | ok opened =>
      rw [hcreate] at hfailed
      cases hfailed
  · intro path sizing hoccupied
    rw [Directory.createStepwise_eq, Directory.create_of_isOccupied hoccupied]
  · intro path name sizing hplace hfree hsize
    exact ⟨Directory.createStepwise_of_not_makes hplace hfree hsize,
      fun host' sizing' hsize' => Directory.exists_create_of_free hplace hfree hsize'⟩

section ThreePages

open PageFile

/-- On a system with room for three pages only, a file of three pages gets no fourth, and a creation at
the default length leaves the path free for a shorter file. -/
theorem failed_calls_leave_no_trace_threePages :
    fullLeafFile.withFreshPage.pageCall .allocate
        = (.error (.error .io), fullLeafFile.withFreshPage) ∧
      afterEvents reopening fullLeafFile.withFreshPage
          [.ask .pages (.allocate 2), .ask .pages (.setRoot ⟨9⟩), .ask .pages .save]
        = afterEvents reopening fullLeafFile.withFreshPage [.ask .pages .save] ∧
      Directory.empty.createStepwise threePages "new" .default
        = (.error (.error .io), Directory.empty) ∧
      (∃ opened, Directory.empty.createStepwise threePages "new" ⟨8192, 4096⟩
          = (.ok opened, opened.directory) ∧
        Directory.empty.loadOrCreate threePages "new" ⟨8192, 4096⟩ = .ok opened) ∧
      ((Session.start threePages).openFile "index" .index .create "new" .default).2
        = Session.start threePages := by
  obtain ⟨hrefused, hsets, -, -, -, hruns, -, -, hcreate, hopen, hfree⟩ :=
    failed_calls_leave_no_trace fullLeafFile.withFreshPage threePages Directory.empty
      (Session.start threePages)
  have hallocate := hsets (by decide) (by decide) (by decide)
  have hfirst : fullLeafFile.withFreshPage.refuses (.ask .pages (.allocate 2)) := by
    rw [refuses, Event.pageCall?, Option.bind_some, hallocate]
    rfl
  have hsecond : fullLeafFile.withFreshPage.refuses (.ask .pages (.setRoot ⟨9⟩)) := by decide
  obtain ⟨-, hrun⟩ := hruns [.ask .pages (.allocate 2), .ask .pages (.setRoot ⟨9⟩), .ask .pages .save]
  rw [accepted, if_pos hfirst, reopening_of_refuses hfirst, accepted, if_pos hsecond,
    reopening_of_refuses hsecond] at hrun
  have hplace : Directory.empty.place "new" = .entry "new" := rfl
  obtain ⟨hfailed, hlater⟩ := hcreate "new" "new" .default hplace rfl (by decide)
  have hopened := hlater threePages ⟨8192, 4096⟩ (by decide)
  have hnothing : (Session.start threePages).directory.create (Session.start threePages).host "new"
      .default = .error (.error .io) := by
    have hstart : (Session.start threePages).directory.place "new" = .entry "new" := hplace
    rw [Directory.create_of_free hstart rfl, PageFile.create, if_neg (by decide)]
    rfl
  have hanswer : ((Session.start threePages).openFile "index" .index .create "new" .default).1
      = .error (.failed (.error .io)) := by
    simp only [Session.openFile, hfree "index" rfl, hnothing]
  refine ⟨hrefused _ _ hallocate, hrun.symm, hfailed, hopened, ?_⟩
  rw [hopen _ _ _ _ _ _ hanswer, hfree "index" rfl]

end ThreePages

end RowIndex
