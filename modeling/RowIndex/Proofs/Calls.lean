import RowIndex.Proofs.Deletions

/-! # Runs of calls

What an audit accepts, it accepts after every call on the index, and so in whole runs of calls.

* **`Call`** — an insertion, a deletion, a save, or letting go of the file and opening it again.
* **`PageFile.call`** — what a call answers and leaves behind; `afterAll` is the file after a run of calls
  that succeed, `afterCalls` the file after any run.
* **`Call.Changes`** — what a call that succeeds makes of the listed entries; `entriesWith` is the list
  with one entry more.
* **`Lists.call`**, `InUse.call` — what one call keeps; `Lists.afterCalls` is the same for a run.
* **`newFile`** — a file to start from. -/

namespace RowIndex

/-! ## (1) Calls -/

/-- **A call on an index.** -/
inductive Call where
  /-- To insert a text under a key. -/
  | insert (key : Int32) (text : String)
  /-- To clear the slots that hold texts. -/
  | deleteValues (texts : List String)
  /-- To save. -/
  | save
  /-- To let go of the file, saved first or not, and to open it again. -/
  | reopen (saved : Bool) (sizing : Sizing)

/-- **What a call that succeeds makes of the entries** that a file lists. -/
inductive Call.Changes : Call → List (Int32 × RowId) → List (Int32 × RowId) → Prop
  /-- An insertion puts its entry behind those whose keys are not above its key. -/
  | insert {key : Int32} {text : String} {front back : List (Int32 × RowId)} :
      (∀ e ∈ front, e.1 ≤ key) → (∀ e ∈ back, key < e.1) →
        Changes (.insert key text) (front ++ back) (front ++ (key, RowId.ofText text) :: back)
  /-- A deletion clears slots. -/
  | deleteValues {texts : List String} {L : List (Int32 × RowId)} :
      Changes (.deleteValues texts) L (L.map fun e => (e.1, e.2.cleared (PageFile.targetsOf texts)))
  /-- A save changes nothing. -/
  | save {L : List (Int32 × RowId)} : Changes .save L L
  /-- Nor does opening the file again. -/
  | reopen {saved : Bool} {sizing : Sizing} {L : List (Int32 × RowId)} :
      Changes (.reopen saved sizing) L L

/-- **The entries with one more**, behind those whose keys are not above its key. -/
def entriesWith (key : Int32) (value : RowId) (L : List (Int32 × RowId)) : List (Int32 × RowId) :=
  L.filter (fun e => e.1 ≤ key) ++ (key, value) :: L.filter fun e => key < e.1

/-- The place of a new entry is where its key divides the others. -/
theorem entriesWith_of_divided {key : Int32} {value : RowId} {front back : List (Int32 × RowId)}
    (hfront : ∀ e ∈ front, e.1 ≤ key) (hback : ∀ e ∈ back, key < e.1) :
    entriesWith key value (front ++ back) = front ++ (key, value) :: back := by
  rw [entriesWith, List.filter_append, List.filter_append,
    List.filter_eq_self.2 fun e he => decide_eq_true (hfront e he),
    List.filter_eq_nil_iff.2 fun e he hle => Int32.not_le.2 (hback e he) (of_decide_eq_true hle),
    List.filter_eq_self.2 fun e he => decide_eq_true (hback e he),
    List.filter_eq_nil_iff.2 fun e he hlt => Int32.not_le.2 (of_decide_eq_true hlt) (hfront e he),
    List.append_nil, List.nil_append]

/-- **Other slots do not change the place of a new entry.** -/
theorem entriesWith_map (key : Int32) (value : RowId) (ψ : RowId → RowId)
    (L : List (Int32 × RowId)) :
    (entriesWith key value L).map (fun e => (e.1, ψ e.2))
      = entriesWith key (ψ value) (L.map fun e => (e.1, ψ e.2)) := by
  rw [entriesWith, entriesWith, List.map_append, List.map_cons, List.filter_map, List.filter_map]
  rfl

namespace PageFile

/-- **What is left of a file that is let go of**, saved first or not. -/
def leftBehind (f : PageFile) (saved : Bool) : PageFile :=
  if saved then f.flushed else f.released

/-- **What a call answers and leaves behind.** A file that cannot be opened again stays as it was
left. -/
def call (f : PageFile) : Call → Except Failure Unit × PageFile
  | .insert key text => (insert key text).runOn f
  | .deleteValues texts =>
    let (result, g) := (deleteValues texts).runOn f
    (result.map fun _ => (), g)
  | .save => flush.runOn f
  | .reopen saved sizing =>
    match openImage f.host f.path (f.leftBehind saved).image sizing with
    | .ok g => (.ok (), g)
    | .error failure => (.error failure, f.leftBehind saved)

/-- **The file after a run of calls** that all succeed. -/
def afterAll (f : PageFile) : List Call → Except Failure PageFile
  | [] => .ok f
  | c :: calls =>
    match f.call c with
    | (.ok (), g) => g.afterAll calls
    | (.error failure, _) => .error failure

/-- **The file after a run of calls**, whatever becomes of each. -/
def afterCalls (f : PageFile) (calls : List Call) : PageFile :=
  calls.foldl (fun f c => (f.call c).2) f

@[simp] theorem afterCalls_nil (f : PageFile) : f.afterCalls [] = f := rfl

@[simp] theorem afterCalls_cons (f : PageFile) (c : Call) (calls : List Call) :
    f.afterCalls (c :: calls) = (f.call c).2.afterCalls calls := rfl

/-- **A run succeeds** just if its first call does and the rest does from there. -/
theorem afterAll_cons_eq_ok_iff {f g : PageFile} {c : Call} {calls : List Call} :
    f.afterAll (c :: calls) = .ok g ↔ ∃ k, f.call c = (.ok (), k) ∧ k.afterAll calls = .ok g := by
  rw [afterAll]
  rcases f.call c with ⟨failure | ok, k⟩
  · simp
  · simp

/-- One run after another. -/
theorem afterAll_append {f g k : PageFile} {calls rest : List Call} (h : f.afterAll calls = .ok k)
    (hrest : k.afterAll rest = .ok g) : f.afterAll (calls ++ rest) = .ok g := by
  induction calls generalizing f with
  | nil =>
    obtain rfl := Except.ok.inj h
    exact hrest
  | cons c calls ih =>
    obtain ⟨m, hcall, hafter⟩ := afterAll_cons_eq_ok_iff.1 h
    exact afterAll_cons_eq_ok_iff.2 ⟨m, hcall, ih hafter⟩

/-- **A run of calls that all succeed** leaves the file that a run leaves whatever becomes of each. -/
theorem afterCalls_of_afterAll {f g : PageFile} {calls : List Call} (h : f.afterAll calls = .ok g) :
    f.afterCalls calls = g := by
  induction calls generalizing f with
  | nil => exact Except.ok.inj h
  | cons c calls ih =>
    obtain ⟨k, hcall, hafter⟩ := afterAll_cons_eq_ok_iff.1 h
    rw [afterCalls_cons, hcall]
    exact ih hafter

/-! ## (2) Letting go of a file -/

theorem record_leftBehind (f : PageFile) (saved : Bool) :
    (f.leftBehind saved).record = f.record := by
  rw [leftBehind, released]
  split
  · rfl
  · split <;> rfl

theorem readPage_leftBehind (f : PageFile) (saved : Bool) (p : PageId) :
    (f.leftBehind saved).readPage p = f.readPage p := by
  rw [leftBehind, released]
  split
  · exact readPage_flushed f p
  · split
    · exact readPage_flushed f p
    · rfl

theorem length_image_leftBehind (f : PageFile) (saved : Bool) :
    (f.leftBehind saved).image.length = f.image.length := by
  rw [leftBehind, released]
  split
  · rfl
  · split <;> rfl

namespace InUse

variable {f g : PageFile}

theorem leftBehind (h : f.InUse) (saved : Bool) : (f.leftBehind saved).InUse := by
  unfold PageFile.leftBehind
  split
  · exact h.flushed
  · exact h.released

/-- **A file that is opened again is as it was**, saved or not. -/
theorem openImage_leftBehind (h : f.InUse) {host : Host} {path : String} {saved : Bool}
    {sizing : Sizing} (hopen : openImage host path (f.leftBehind saved).image sizing = .ok g) :
    g.record = f.record ∧ ∀ p, g.readPage p = f.readPage p := by
  have hlength := (openImage_eq_ok_iff.1 hopen).2.1
  rw [openImage_image (h.leftBehind saved) hlength path sizing] at hopen
  have hrecord : g.record = (f.leftBehind saved).record := by
    rw [← Except.ok.inj hopen]
  have himage : g.image = (f.leftBehind saved).image := by
    rw [← Except.ok.inj hopen]
  refine ⟨hrecord.trans (record_leftBehind f saved), fun p => ?_⟩
  rw [← readPage_leftBehind f saved p]
  exact readPage_congr_of_record hrecord p fun _ => by rw [himage]

/-- **A call keeps a file in use.** -/
theorem call (h : f.InUse) (c : Call) : (f.call c).2.InUse := by
  cases c with
  | insert key text => exact keeps_insert key text f h
  | deleteValues texts => exact keeps_deleteValues texts f h
  | save => exact keeps_flush f h
  | reopen saved sizing =>
    rw [PageFile.call]
    split
    · rename_i g hopen
      exact inUse_openImage hopen
    · exact h.leftBehind saved

theorem afterCalls (h : f.InUse) (calls : List Call) : (f.afterCalls calls).InUse := by
  induction calls generalizing f with
  | nil => exact h
  | cons c calls ih => exact ih (h.call c)

end InUse

/-! ## (3) What stays true from call to call -/

namespace Lists

variable {f : PageFile} {L : List (Int32 × RowId)}

/-- Saving changes nothing that is listed, also when it fails. -/
theorem flush (h : f.Lists L) : (PageFile.flush.runOn f).2.Lists L := by
  rw [runOn_flush]
  split
  · exact h.congr (record_flushed f) (readPage_flushed f)
  · exact h.congr (record_storeRecord f) (readPage_storeRecord f)

/-- **All that a call can do** to what a file in use lists. -/
theorem call (h : f.Lists L) (hinUse : f.InUse) (c : Call) :
    ∃ L', (f.call c).2.Lists L' ∧ ((f.call c).1 = .ok () → c.Changes L L') := by
  cases c with
  | insert key text =>
    have hinserted := h.insertValue key (RowId.ofText text)
    -- what is listed afterwards depends on the outcome of the insertion only
    rw [PageFile.call, insert]
    generalize (PageFile.insertValue key (RowId.ofText text)).runOn f = outcome at hinserted ⊢
    cases hinserted with
    | done hbefore hfront hback hlists =>
      subst hbefore
      exact ⟨_, hlists, fun _ => .insert hfront hback⟩
    | refused _ hlists => exact ⟨L, hlists, fun hok => by cases hok⟩
  | deleteValues texts =>
    have hdeleted := h.deleteValues texts
    rw [PageFile.call]
    generalize (PageFile.deleteValues texts).runOn f = outcome at hdeleted ⊢
    cases hdeleted with
    | done hlists => exact ⟨_, hlists, fun _ => .deleteValues⟩
    | refused _ hlists => exact ⟨_, hlists, fun hok => by cases hok⟩
  | save => exact ⟨L, h.flush, fun _ => .save⟩
  | reopen saved sizing =>
    rw [PageFile.call]
    split
    · rename_i g hopen
      obtain ⟨hrecord, hread⟩ := hinUse.openImage_leftBehind hopen
      exact ⟨L, h.congr hrecord hread, fun _ => .reopen⟩
    · -- it cannot be opened, and stays as it was left
      exact ⟨L, h.congr (record_leftBehind f saved) (readPage_leftBehind f saved),
        fun _ => .reopen⟩

/-- **In a run of calls** an audit accepts every file on the way. -/
theorem afterCalls (h : f.Lists L) (hinUse : f.InUse) (calls : List Call) :
    ∃ L', (f.afterCalls calls).Lists L' := by
  induction calls generalizing f L with
  | nil => exact ⟨L, h⟩
  | cons c calls ih =>
    obtain ⟨L', hlists, -⟩ := h.call hinUse c
    exact ih hlists (hinUse.call c)

end Lists

/-- A new file lists nothing. -/
theorem lists_create {host : Host} {path : String} {sizing : Sizing} {f : PageFile}
    (h : create host path sizing = .ok f) : f.Lists [] := by
  obtain ⟨-, rfl⟩ := create_eq_ok_iff.1 h
  have hroot : ¬ Metadata.empty.root.isValid := by decide
  exact .nothing hroot

/-! ## (4) A new file -/

/-- A new file of the default length. -/
def newFile : PageFile :=
  flushed ⟨"new", FileImage.empty.resize 10485760, 10485760, Metadata.empty, .default, default, true⟩

theorem create_newFile : create default "new" .default = .ok newFile :=
  create_eq_ok_iff.2 ⟨by decide, rfl⟩

end PageFile

end RowIndex
