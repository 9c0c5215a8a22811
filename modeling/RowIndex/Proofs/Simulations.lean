import RowIndex.PageFile.Report
import RowIndex.Tree.Audit
import RowIndex.Tree.Insertion
import RowIndex.Tree.Lookup
import RowIndex.Tree.Values

/-! # Files that are alike

Two files may differ in what a question or an action does not look at. The answers are then the same,
and an action leaves two files behind that are alike again.

* **`PageFile.SamePages`** — the same record and the same nodes, which is all that questions see.
* **`Action.Respects`** — an action that answers the same on files that are alike in some way.
* **`Action.Keeps`** — an action that keeps a property of one file, whether it succeeds or not.
* **`PageFile.Simulation`** — a way of being alike that the elementary actions respect.
* **`Simulation.insert`**, `Simulation.deleteValues` — the operations of an index respect it too. -/

namespace RowIndex

namespace PageFile

/-! ## (1) Questions -/

/-- **Two files with the same record and the same nodes**, whatever else differs. -/
structure SamePages (f g : PageFile) : Prop where
  /-- The record in force is the same. -/
  record : g.record = f.record
  /-- All pages read the same. -/
  read : ∀ p, g.readPage p = f.readPage p

namespace SamePages

variable {f g : PageFile} (h : SamePages f g)

include h

theorem root : g.root = f.root :=
  congrArg Metadata.root h.record

theorem pageCount : g.pageCount = f.pageCount :=
  congrArg Metadata.pageCount h.record

theorem treeAt (fuel : Nat) (p : PageId) : g.treeAt fuel p = f.treeAt fuel p := by
  induction fuel generalizing p with
  | zero => rfl
  | succ fuel ih =>
    have hbelow : g.treeAt fuel = f.treeAt fuel := funext ih
    rw [PageFile.treeAt, PageFile.treeAt, h.read, hbelow]

theorem tree : g.tree = f.tree := by
  rw [PageFile.tree, PageFile.tree, h.root, h.pageCount, h.treeAt]

theorem descend (route : Route) (fuel : Nat) (node : Node) :
    g.descend route fuel node = f.descend route fuel node := by
  induction fuel generalizing node with
  | zero => rw [descend.eq_def, descend.eq_def f]
  | succ fuel ih =>
    rw [descend.eq_def, descend.eq_def f]
    simp only [h.read, ih]

theorem leafBy (route : Route) : g.leafBy route = f.leafBy route := by
  simp only [PageFile.leafBy, h.root, h.pageCount, h.read, h.descend]

theorem chainUntil (stop : Int32 → Bool) (fuel : Nat) (leaf : Node) :
    g.chainUntil stop fuel leaf = f.chainUntil stop fuel leaf := by
  induction fuel generalizing leaf with
  | zero => rw [chainUntil.eq_def, chainUntil.eq_def f]
  | succ fuel ih =>
    rw [chainUntil.eq_def, chainUntil.eq_def f]
    simp only [h.read, ih]

theorem chain : g.chain = f.chain := by
  simp only [PageFile.chain, leftmostLeaf, h.leafBy, h.pageCount, h.chainUntil]

theorem search (key : Int32) : g.search key = f.search key := by
  simp only [PageFile.search, h.leafBy, h.pageCount, h.chainUntil]

theorem range (low high : Int32) : g.range low high = f.range low high := by
  simp only [PageFile.range, h.leafBy, h.pageCount, h.chainUntil]

theorem chainFrom (leaves left : Nat) (current : PageId) (previous : Option Int32) :
    g.chainFrom leaves left current previous = f.chainFrom leaves left current previous := by
  induction left generalizing current previous with
  | zero => rw [chainFrom.eq_def, chainFrom.eq_def f]
  | succ left ih =>
    rw [chainFrom.eq_def, chainFrom.eq_def f]
    simp only [h.read, ih]

theorem audit : g.audit = f.audit := by
  have hchain : g.chainViolations = f.chainViolations := by
    funext leaves
    cases leaves with
    | nil => rfl
    | cons first rest => simp only [chainViolations, h.chainFrom]
  rw [PageFile.audit, PageFile.audit, h.tree, hchain, h.record]

theorem containsFrom (value : RowId) (count i : Nat) :
    g.containsFrom value count i = f.containsFrom value count i := by
  induction count generalizing i with
  | zero => rfl
  | succ count ih => rw [PageFile.containsFrom, PageFile.containsFrom, h.read, ih]

theorem contains (text : String) : g.contains text = f.contains text := by
  simp only [PageFile.contains, h.pageCount, h.containsFrom]

theorem sketchesFrom (count i : Nat) (seen : List PageSketch) :
    g.sketchesFrom count i seen = f.sketchesFrom count i seen := by
  induction count generalizing i seen with
  | zero => rfl
  | succ count ih => simp only [PageFile.sketchesFrom, h.read, ih]

end SamePages

end PageFile

namespace Action

variable {α β : Type} {P : PageFile → Prop} {R : PageFile → PageFile → Prop}

/-! ## (2) One action after another -/

/-- **An action that answers the same on files that are alike**, and leaves such files behind. -/
def Respects (R : PageFile → PageFile → Prop) (action : Action α) : Prop :=
  ∀ f g, R f g → (action.runOn g).1 = (action.runOn f).1 ∧ R (action.runOn f).2 (action.runOn g).2

theorem respects_pure (a : α) : Respects R (pure a : Action α) :=
  fun _ _ h => ⟨rfl, h⟩

theorem respects_throw (failure : Failure) : Respects R (throw failure : Action α) :=
  fun _ _ h => ⟨rfl, h⟩

/-- A question that is answered the same on files that are alike. -/
theorem respects_ask {question : PageFile → Except Failure α}
    (hquestion : ∀ f g, R f g → question g = question f) : Respects R (ask question) := by
  intro f g h
  rw [runOn_ask, runOn_ask]
  exact ⟨hquestion f g h, h⟩

/-- One action after another respects what both do. -/
theorem respects_bind {action : Action α} {next : α → Action β} (haction : Respects R action)
    (hnext : ∀ a, Respects R (next a)) : Respects R (action >>= next) := by
  intro f g h
  rw [runOn_bind, runOn_bind]
  obtain ⟨hanswer, halike⟩ := haction f g h
  rcases hf : action.runOn f with ⟨answer, f'⟩
  rcases hg : action.runOn g with ⟨answer', g'⟩
  rw [hf, hg] at hanswer halike
  obtain rfl : answer' = answer := hanswer
  cases answer' with
  | error failure => exact ⟨rfl, halike⟩
  | ok a => exact hnext a f' g' halike

/-- What is done with the file itself has to be the same for files that are alike. -/
theorem respects_get_bind {next : PageFile → Action β} (hnext : ∀ f, Respects R (next f))
    (hsame : ∀ f g, R f g → next g = next f) : Respects R (get >>= next) := by
  intro f g h
  rw [runOn_bind, runOn_bind, runOn_get, runOn_get]
  simp only
  rw [hsame f g h]
  exact hnext f f g h

/-! ## (3) One file -/

/-- **An action that keeps a property of the file**, whether it succeeds or not. -/
def Keeps (P : PageFile → Prop) (action : Action α) : Prop :=
  ∀ f, P f → P (action.runOn f).2

/-- A property of a file is a way of being alike: to be the same file, with the property. -/
theorem respects_iff_keeps {action : Action α} :
    Respects (fun f g => f = g ∧ P f) action ↔ Keeps P action := by
  constructor
  · intro h f hf
    exact (h f f ⟨rfl, hf⟩).2.2
  · rintro h f g ⟨rfl, hf⟩
    exact ⟨rfl, rfl, h f hf⟩

end Action

namespace PageFile

open RowIndex.Action

/-! ## (4) The operations of an index -/

/-- **A way of being alike that the elementary actions respect.** -/
structure Simulation (R : PageFile → PageFile → Prop) : Prop where
  /-- Files that are alike have the same record and the same nodes. -/
  same : ∀ f g, R f g → SamePages f g
  /-- Allocating respects it. -/
  allocate : Respects R allocate
  /-- Writing a node respects it. -/
  writePage : ∀ node, Respects R (writePage node)
  /-- Setting the root respects it. -/
  setRoot : ∀ root, Respects R (setRoot root)
  /-- Storing the record respects it. -/
  flush : Respects R flush

/-- What the elementary actions keep is a way of being alike. -/
theorem simulation_of_keeps {P : PageFile → Prop} (hallocate : Keeps P allocate)
    (hwrite : ∀ node, Keeps P (writePage node)) (hroot : ∀ root, Keeps P (setRoot root))
    (hflush : Keeps P flush) : Simulation fun f g => f = g ∧ P f where
  same := by
    rintro f g ⟨rfl, -⟩
    exact ⟨rfl, fun _ => rfl⟩
  allocate := respects_iff_keeps.2 hallocate
  writePage node := respects_iff_keeps.2 (hwrite node)
  setRoot root := respects_iff_keeps.2 (hroot root)
  flush := respects_iff_keeps.2 hflush

namespace Simulation

variable {R : PageFile → PageFile → Prop} (h : Simulation R)

include h

/-- Reading a page that does not depend on the file. -/
theorem readPage (p : PageId) : Respects R (ask (·.readPage p)) :=
  respects_ask fun f g hfg => (h.same f g hfg).read p

/-- Reading a child. -/
theorem readChild (children : List PageId) (i : Nat) :
    Respects R (ask fun f => do f.readPage (← childAt children i)) := by
  refine respects_ask fun f g hfg => ?_
  have hread : g.readPage = f.readPage := funext (h.same f g hfg).read
  rw [hread]

theorem splitChild (parent : Node) (i : Nat) (child : Node) :
    Respects R (splitChild parent i child) := by
  refine respects_bind h.allocate fun sibling => ?_
  split
  · exact respects_throw _
  · refine respects_bind (h.writePage _) fun _ => ?_
    refine respects_bind (h.writePage _) fun _ => ?_
    exact respects_bind (h.writePage _) fun _ => respects_pure _

theorem insertBelow (key : Int32) (value : RowId) (fuel : Nat) (node : Node) :
    Respects R (insertBelow key value fuel node) := by
  induction fuel generalizing node with
  | zero =>
    rw [PageFile.insertBelow.eq_def]
    simp only
    split
    · exact h.writePage _
    · exact respects_throw _
  | succ fuel ih =>
    rw [PageFile.insertBelow.eq_def]
    simp only
    split
    · exact h.writePage _
    · refine respects_bind (h.readChild node.children _) fun child => ?_
      split
      · refine respects_bind (h.splitChild _ _ _) fun halves => ?_
        exact respects_bind (h.readChild halves.1.children _) fun half => ih half
      · exact ih child

theorem insertValue (key : Int32) (value : RowId) : Respects R (insertValue key value) := by
  refine respects_get_bind (fun f => ?_) fun f g hfg => ?_
  · split
    · refine respects_bind (h.readPage _) fun root => ?_
      split
      · refine respects_bind h.allocate fun id => ?_
        refine respects_bind (h.splitChild _ _ _) fun halves => ?_
        exact respects_bind (h.setRoot id) fun _ => h.insertBelow key value _ _
      · exact h.insertBelow key value _ _
    · refine respects_bind h.allocate fun id => ?_
      exact respects_bind (h.writePage _) fun _ => h.setRoot id
  · -- of the file itself only the record is looked at
    have hsame := h.same f g hfg
    simp only [hsame.root, hsame.pageCount]

/-- **An insertion answers the same on files that are alike.** -/
theorem insert (key : Int32) (text : String) : Respects R (insert key text) :=
  h.insertValue key _

theorem clearFrom (targets : List RowId) (count i cleared : Nat) :
    Respects R (clearFrom targets count i cleared) := by
  induction count generalizing i cleared with
  | zero => exact respects_pure cleared
  | succ count ih =>
    refine respects_bind (h.readPage _) fun node => ?_
    simp only
    split
    · exact respects_bind (h.writePage _) fun _ => ih _ _
    · exact respects_bind (respects_pure _) fun _ => ih _ _

/-- **A deletion answers the same on files that are alike.** -/
theorem deleteValues (texts : List String) : Respects R (deleteValues texts) := by
  rw [PageFile.deleteValues]
  split
  · exact respects_pure 0
  · refine respects_get_bind (fun f => h.clearFrom _ _ _ _) fun f g hfg => ?_
    rw [(h.same f g hfg).pageCount]

end Simulation

end PageFile

end RowIndex
