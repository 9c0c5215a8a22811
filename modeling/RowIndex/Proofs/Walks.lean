import RowIndex.Proofs.PageOwners
import RowIndex.PageFile.Opening

/-! # Walks that come to an end

A descent follows children and a scan follows the leaf chain, in a file of any content. A walk that
does not come back to a page meets no page twice, so it ends before the pages are used up, and nothing
that it asks of a node on its way is missing: a node that was read has a child for every route.

* **`Told`** — a result that is an answer or an error of which the caller is told; `Told.bind` for one
  question after another.
* **`Loopless`** — nothing that is reached leads back to itself.
* **`PageFile.WalksWithin`** — a walk that does not come back, and the pages that it can meet;
  `WalksWithin.step` takes a page off them.
* **`WalksWithin.descend`**, `WalksWithin.chainUntil` — descents and scans come to an end.
* **`faultless_search`** and its neighbours — so do the questions that are made of them.
* **`PageFile.ClearBelow`** — nothing below a page leads back or out of the file; `ClearBelow.transfer`
  for half of a node that was split.
* **`Holds.loopless`**, `Carries.loopless_isNext` — trees have no loops; `loopless_of_verify` for an index
  that passes its audit. -/

namespace RowIndex

open Relation

/-! ## (1) Results without a fault -/

section Results

variable {α β : Type} {P Q : α → Prop} {R : β → Prop}

/-- **A result that is an answer, or an error that the caller is told about.** The answer has the
property `Q`. -/
inductive Told (Q : α → Prop) : Except Failure α → Prop
  /-- An answer. -/
  | ok {a : α} : Q a → Told Q (.ok a)
  /-- An error. -/
  | error (e : Error) : Told Q (.error (.error e))

/-- **A result that is an answer of any kind, or an error that the caller is told about.** -/
abbrev Faultless (result : Except Failure α) : Prop :=
  Told (fun _ => True) result

theorem told_of_ne_fault {result : Except Failure α}
    (h : ∀ fault, result ≠ .error (.fault fault)) (hok : ∀ a, result = .ok a → Q a) :
    Told Q result := by
  match result, h, hok with
  | .ok a, _, hok => exact .ok (hok a rfl)
  | .error (.error e), _, _ => exact .error e
  | .error (.fault fault), h, _ => exact absurd rfl (h fault)

/-- **One question after another.** -/
theorem Told.bind {result : Except Failure α} {next : α → Except Failure β} (h : Told Q result)
    (hnext : ∀ a, Q a → Told R (next a)) : Told R (result >>= next) := by
  cases h with
  | ok ha => exact hnext _ ha
  | error e => exact .error e

/-- A weaker property of the answer. -/
theorem Told.mono {result : Except Failure α} (h : Told P result) (hPQ : ∀ a, P a → Q a) :
    Told Q result := by
  cases h with
  | ok ha => exact .ok (hPQ _ ha)
  | error e => exact .error e

end Results

/-! ## (2) Loops -/

section Loops

variable {α : Type} {R : α → α → Prop} {p q : α}

/-- **Nothing that is reached from `p` leads back to itself.** -/
def Loopless (R : α → α → Prop) (p : α) : Prop :=
  ∀ q, ReflTransGen R p q → ¬ TransGen R q q

/-- What is reached from there has no loop either. -/
theorem Loopless.of_reached (h : Loopless R p) (hpq : ReflTransGen R p q) : Loopless R q :=
  fun r hqr => h r (hpq.trans hqr)

/-- **Without a loop from the next steps on there is none at all.** -/
theorem Loopless.of_next (h : ∀ q, R p q → Loopless R q) : Loopless R p := by
  intro r hr hcycle
  rcases ReflTransGen.cases_head hr with rfl | ⟨q, hstep, hqr⟩
  · obtain ⟨q, hstep, hback⟩ := TransGen.head'_iff.1 hcycle
    exact h q hstep _ hback hcycle
  · exact h q hstep r hqr hcycle

end Loops

namespace PageFile

variable {f : PageFile} {R : PageId → PageId → Prop} {p q : PageId} {S : List PageId}

/-- **A walk from `p` along `R` that does not come back.** Of the allocated pages it meets those of `S`
at most. -/
structure WalksWithin (f : PageFile) (R : PageId → PageId → Prop) (p : PageId) (S : List PageId) :
    Prop where
  /-- Allocated pages that are met are listed. -/
  listed : ∀ q, TransGen R p q → f.record.isAllocated q → q ∈ S
  /-- No page is met again. -/
  loopless : Loopless R p

/-- A list that has lost a page asks for one step less. -/
theorem length_erase_lt {fuel : Nat} (hmem : q ∈ S) (hfuel : S.length < fuel + 1) :
    (S.erase q).length < fuel := by
  have hpos := List.length_pos_of_mem hmem
  rw [List.length_erase_of_mem hmem]
  omega

/-- Of the allocated pages a walk meets the allocated pages at most. -/
theorem walksWithin_allocatedPages (h : Loopless R p) : f.WalksWithin R p f.allocatedPages :=
  ⟨fun _ _ hq => mem_allocatedPages.2 hq, h⟩

/-- **Each step takes a page off the list.** -/
theorem WalksWithin.step (h : f.WalksWithin R p S) (hstep : R p q) (hq : f.record.isAllocated q) :
    q ∈ S ∧ f.WalksWithin R q (S.erase q) := by
  refine ⟨h.listed q (.single hstep) hq, fun r hr ha => ?_, h.loopless.of_reached (.single hstep)⟩
  have hother : r ≠ q := by
    rintro rfl
    exact h.loopless r (.single hstep) hr
  exact (List.mem_erase_of_ne hother).2 (h.listed r (hr.head hstep) ha)

/-! ## (3) Descents -/

theorem told_readPage (f : PageFile) (p : PageId) :
    Told (fun n => f.readPage n.id = .ok n ∧ n.id = p) (f.readPage p) := by
  refine told_of_ne_fault (readPage_ne_fault f p) fun n hn => ?_
  have hid := id_of_readPage hn
  exact ⟨by rwa [hid], hid⟩

/-- **A node that was read has a child for every route.** -/
theorem exists_childAt {n : Node} (hn : f.readPage n.id = .ok n) (hinner : ¬ n.isLeaf) {i : Nat}
    (hi : i ≤ n.keys.length) : ∃ c ∈ n.children, n.children[i]? = some c := by
  have hfit := (Node.defect?_eq_none_iff n).1 (defect?_of_readPage hn)
  obtain ⟨id, keys, body⟩ := n
  cases body with
  | leaf => exact absurd rfl hinner
  | internal children =>
    have hlt : i < children.length := by
      rw [hfit.2]
      exact Nat.lt_succ_of_le hi
    exact ⟨children[i], List.getElem_mem hlt, List.getElem?_eq_getElem hlt⟩

/-- A descent stops at a leaf. -/
theorem descend_of_isLeaf {route : Route} {fuel : Nat} {n : Node} (h : n.isLeaf) :
    f.descend route fuel n = .ok n := by
  obtain ⟨id, keys, body⟩ := n
  cases body with
  | leaf values next => rw [descend.eq_def]
  | internal => cases h

/-- A descent from an internal node goes on below the child that the route takes. -/
theorem descend_of_child {route : Route} {fuel : Nat} {n : Node} (hinner : ¬ n.isLeaf) {c : PageId}
    (hc : n.children[route n.keys]? = some c) :
    f.descend route (fuel + 1) n = f.readPage c >>= f.descend route fuel := by
  obtain ⟨id, keys, body⟩ := n
  cases body with
  | leaf => exact absurd rfl hinner
  | internal children =>
    have hplace : childAt children (route keys) = .ok c := by
      rw [childAt, show children[route keys]? = some c from hc]
    rw [descend.eq_def]
    simp only [Node.children, hplace]
    rfl

/-- **A descent comes to an end**, at a leaf that the node leads to. -/
theorem WalksWithin.descend {route : Route} (hroute : ∀ keys, route keys ≤ keys.length)
    {fuel : Nat} {n : Node} (hn : f.readPage n.id = .ok n) (h : f.WalksWithin f.IsChild n.id S)
    (hfuel : S.length < fuel) :
    Told (fun leaf => f.readPage leaf.id = .ok leaf ∧ ReflTransGen f.IsChild n.id leaf.id)
      (f.descend route fuel n) := by
  -- every node that is read on the way takes a page off the list
  induction fuel generalizing n S with
  | zero => exact absurd hfuel (Nat.not_lt_zero _)
  | succ fuel ih =>
    by_cases hleaf : n.isLeaf
    · rw [descend_of_isLeaf hleaf]
      exact .ok ⟨hn, .refl⟩
    obtain ⟨c, hc, hplace⟩ := exists_childAt hn hleaf (hroute n.keys)
    have hstep : f.IsChild n.id c := ⟨n, hn, hc⟩
    rw [descend_of_child hleaf hplace]
    refine (told_readPage f c).bind fun m hm => ?_
    obtain ⟨hread, rfl⟩ := hm
    obtain ⟨hmem, hwalk⟩ := h.step hstep (isAllocated_of_readPage hread)
    exact (ih hread hwalk (length_erase_lt hmem hfuel)).mono
      fun leaf hfound => ⟨hfound.1, hfound.2.head hstep⟩

/-- **The leaf that a route reaches from the root is found**, or a page on the way cannot be read. -/
theorem told_leafBy (hpages : 1 ≤ f.pageCount) (hloop : Loopless f.IsChild f.root) {route : Route}
    (hroute : ∀ keys, route keys ≤ keys.length) :
    Told (fun found => ∀ leaf, found = some leaf →
      f.readPage leaf.id = .ok leaf ∧ ReflTransGen f.IsChild f.root leaf.id) (f.leafBy route) := by
  rw [leafBy]
  split
  · refine (told_readPage f f.root).bind fun root hroot => ?_
    obtain ⟨hread, hid⟩ := hroot
    rw [← hid] at hloop
    refine (walksWithin_allocatedPages hloop).descend hroute hread ?_ |>.bind fun leaf hleaf => ?_
    · rw [length_allocatedPages]
      omega
    · refine .ok fun leaf' hsome => ?_
      obtain rfl := Option.some.inj hsome
      rwa [hid] at hleaf
  · exact .ok fun leaf hnone => by cases hnone

theorem lookup_le (key : Int32) (keys : List Int32) : Route.lookup key keys ≤ keys.length :=
  frontCount_le _ keys

theorem leftmost_le (keys : List Int32) : Route.leftmost keys ≤ keys.length :=
  Nat.zero_le _

/-! ## (4) Scans -/

/-- **Whether the leaf chain leads from one page to another.** An internal node ends the chain. -/
def IsNext (f : PageFile) (p q : PageId) : Prop :=
  ∃ n, f.readPage p = .ok n ∧ n.next = q

/-- **A scan comes to an end.** -/
theorem WalksWithin.chainUntil (stop : Int32 → Bool) {fuel : Nat} {n : Node}
    (hn : f.readPage n.id = .ok n) (h : f.WalksWithin f.IsNext n.id S) (hfuel : S.length < fuel) :
    Faultless (f.chainUntil stop fuel n) := by
  induction fuel generalizing n S with
  | zero => exact absurd hfuel (Nat.not_lt_zero _)
  | succ fuel ih =>
    rw [chainUntil.eq_def]
    simp only
    split
    · exact .ok trivial
    · split
      · refine (told_readPage f n.next).bind fun m hm => ?_
        obtain ⟨hread, hid⟩ := hm
        have hstep : f.IsNext n.id m.id := ⟨n, hn, hid.symm⟩
        obtain ⟨hmem, hwalk⟩ := h.step hstep (isAllocated_of_readPage hread)
        exact (ih hread hwalk (length_erase_lt hmem hfuel)).bind fun rest _ => .ok trivial
      · exact .ok trivial

section Questions

variable (hpages : 1 ≤ f.pageCount) (hloop : Loopless f.IsChild f.root)
  (hchain : ∀ p, ReflTransGen f.IsChild f.root p → Loopless f.IsNext p)

include hpages hchain

/-- A scan from a leaf under the root comes to an end. -/
theorem faultless_chainUntil (stop : Int32 → Bool) {leaf : Node} (hread : f.readPage leaf.id = .ok leaf)
    (hreached : ReflTransGen f.IsChild f.root leaf.id) :
    Faultless (f.chainUntil stop f.pageCount leaf) := by
  refine (walksWithin_allocatedPages (hchain leaf.id hreached)).chainUntil stop hread ?_
  rw [length_allocatedPages]
  omega

include hloop

theorem faultless_search (key : Int32) : Faultless (f.search key) := by
  refine (told_leafBy hpages hloop (lookup_le key)).bind fun found hfound => ?_
  cases found with
  | none => exact .ok trivial
  | some leaf =>
    obtain ⟨hread, hreached⟩ := hfound leaf rfl
    exact (faultless_chainUntil hpages hchain _ hread hreached).bind fun _ _ => .ok trivial

theorem faultless_range (low high : Int32) : Faultless (f.range low high) := by
  rw [range]
  split
  · exact .ok trivial
  · refine (told_leafBy hpages hloop (lookup_le low)).bind fun found hfound => ?_
    cases found with
    | none => exact .ok trivial
    | some leaf =>
      obtain ⟨hread, hreached⟩ := hfound leaf rfl
      exact (faultless_chainUntil hpages hchain _ hread hreached).bind fun _ _ => .ok trivial

theorem faultless_entries : Faultless f.entries := by
  have hentries : Faultless f.chain := by
    refine (told_leafBy hpages hloop leftmost_le).bind fun found hfound => ?_
    cases found with
    | none => exact .ok trivial
    | some leaf =>
      obtain ⟨hread, hreached⟩ := hfound leaf rfl
      exact faultless_chainUntil hpages hchain _ hread hreached
  exact hentries.bind fun _ _ => .ok trivial

end Questions

/-! ## (5) Other questions -/

theorem faultless_leftmostLeaf (hpages : 1 ≤ f.pageCount) (hloop : Loopless f.IsChild f.root) :
    Faultless f.leftmostLeaf :=
  (told_leafBy hpages hloop leftmost_le).mono fun _ _ => trivial

theorem faultless_verify (hpages : 1 ≤ f.pageCount) (hloop : Loopless f.IsChild f.root) :
    Faultless f.verify :=
  told_of_ne_fault (verify_ne_fault hpages hloop) fun _ _ => trivial

/-- An audit that fails is a verification that fails. -/
theorem verify_of_audit_eq_error {failure : Failure} (h : f.audit = .error failure) :
    f.verify = .error failure := by
  rw [verify, h]
  rfl

theorem faultless_stats (hpages : 1 ≤ f.pageCount) (hloop : Loopless f.IsChild f.root) :
    Faultless f.stats := by
  have haudit : Faultless f.audit := told_of_ne_fault
    (fun fault h => verify_ne_fault hpages hloop fault (verify_of_audit_eq_error h))
    fun _ _ => trivial
  exact haudit.bind fun _ _ => .ok trivial

/-- **A search for a row identifier** reads page after page, and stops where one cannot be read. -/
theorem faultless_contains (f : PageFile) (text : String) : Faultless (f.contains text) := by
  have hscan : ∀ value count i, Faultless (f.containsFrom value count i) := by
    intro value count
    induction count with
    | zero => exact fun i => .ok trivial
    | succ count ih =>
      intro i
      rw [containsFrom]
      refine (told_readPage f _).bind fun n _ => ?_
      split
      · exact .ok trivial
      · exact ih (i + 1)
  rw [contains]
  split
  · exact .ok trivial
  · exact hscan _ _ _

/-- **Opening a file of any content** comes to a file, or to an error. -/
theorem faultless_openImage (host : Host) (path : String) (image : FileImage) (sizing : Sizing) :
    Faultless (openImage host path image sizing) := by
  rw [openImage]
  repeat' split
  all_goals first | exact .error _ | exact .ok trivial

/-! ## (6) The way below a node -/

section Below

variable {g : PageFile} {n m half : Node} {r : PageId} {T : List PageId}

/-- **Nothing below a page leads back to it or out of the file.** The pages below are among those of
`S`. -/
structure ClearBelow (f : PageFile) (p : PageId) (S : List PageId) : Prop where
  /-- No walk comes back. -/
  walk : f.WalksWithin f.IsChild p S
  /-- All pages below are allocated. -/
  allocated : ∀ q, TransGen f.IsChild p q → f.record.isAllocated q

theorem clearBelow_allocatedPages (hloop : Loopless f.IsChild p)
    (hallocated : ∀ q, TransGen f.IsChild p q → f.record.isAllocated q) :
    f.ClearBelow p f.allocatedPages :=
  ⟨walksWithin_allocatedPages hloop, hallocated⟩

namespace ClearBelow

/-- **A child is on the list, and the way below it is clear without it.** -/
theorem step (h : f.ClearBelow p S) (hstep : f.IsChild p q) :
    q ∈ S ∧ f.ClearBelow q (S.erase q) := by
  obtain ⟨hmem, hwalk⟩ := h.walk.step hstep (h.allocated q (.single hstep))
  exact ⟨hmem, hwalk, fun r hr => h.allocated r (hr.head hstep)⟩

theorem mono (h : f.ClearBelow p S) (hST : S ⊆ T) : f.ClearBelow p T :=
  ⟨⟨fun q hq ha => hST (h.walk.listed q hq ha), h.walk.loopless⟩, h.allocated⟩

section Transfer

variable (hm : f.readPage m.id = .ok m) (hhalf : g.readPage half.id = .ok half)
  (hsub : half.children ⊆ m.children)
  (hkept : ∀ q, TransGen f.IsChild m.id q → g.readPage q = f.readPage q)

include hkept

/-- Below a page that is kept nothing changes. -/
theorem reached_of_kept (hq : TransGen f.IsChild m.id q) (hr : TransGen g.IsChild q r) :
    TransGen f.IsChild q r := by
  -- along the way, whose pages are all below the node
  induction hr with
  | single hstep =>
    obtain ⟨k, hk, hmem⟩ := hstep
    exact .single ⟨k, by rwa [← hkept q hq], hmem⟩
  | @tail b c _ hstep ih =>
    obtain ⟨k, hk, hmem⟩ := hstep
    exact ih.tail ⟨k, by rwa [← hkept b (hq.trans ih)], hmem⟩

include hm hhalf hsub

/-- **What half of a node leads to, the node led to.** -/
theorem reached_of_half (hq : TransGen g.IsChild half.id q) : TransGen f.IsChild m.id q := by
  obtain ⟨c, ⟨k, hk, hc⟩, hrest⟩ := TransGen.head'_iff.1 hq
  obtain rfl := Except.ok.inj (hhalf.symm.trans hk)
  have hstep : TransGen f.IsChild m.id c := .single ⟨m, hm, hsub hc⟩
  rcases reflTransGen_iff_eq_or_transGen.1 hrest with rfl | hrest
  · exact hstep
  · exact hstep.trans (reached_of_kept hkept hstep hrest)

/-- **Below half of a node the way is as clear as below the node**, if the pages below are kept. -/
theorem transfer (h : f.ClearBelow m.id S)
    (hid : half.id = m.id ∨ ¬ f.record.isAllocated half.id)
    (hmore : ∀ q, f.record.isAllocated q → g.record.isAllocated q) : g.ClearBelow half.id S := by
  have hreached : ∀ q, TransGen g.IsChild half.id q → TransGen f.IsChild m.id q :=
    fun q => reached_of_half hm hhalf hsub hkept
  refine ⟨⟨fun q hq _ => ?_, fun q hq hcycle => ?_⟩, fun q hq => hmore q (h.allocated q (hreached q hq))⟩
  · exact h.walk.listed q (hreached q hq) (h.allocated q (hreached q hq))
  rcases reflTransGen_iff_eq_or_transGen.1 hq with rfl | hbelow
  · -- a way back to the half would be one back to the node, or to a page that was not there
    rcases hid with hid | hnew
    · have hback := hreached _ hcycle
      rw [hid] at hback
      exact h.walk.loopless _ .refl hback
    · exact hnew (h.allocated _ (hreached _ hcycle))
  · exact h.walk.loopless q (hreached q hbelow).to_reflTransGen
      (reached_of_kept hkept (hreached q hbelow) hcycle)

end Transfer

/-- **Above pages whose ways are clear**, none of which leads back. -/
theorem above (hn : f.readPage n.id = .ok n)
    (h : ∀ c ∈ n.children, c ∈ S ∧ f.record.isAllocated c ∧ f.ClearBelow c S ∧
      ¬ ReflTransGen f.IsChild c n.id) : f.ClearBelow n.id S := by
  have hcases : ∀ q, TransGen f.IsChild n.id q →
      ∃ c ∈ n.children, ReflTransGen f.IsChild c q := by
    intro q hq
    obtain ⟨c, ⟨k, hk, hc⟩, hrest⟩ := TransGen.head'_iff.1 hq
    obtain rfl := Except.ok.inj (hn.symm.trans hk)
    exact ⟨c, hc, hrest⟩
  have hallocated : ∀ q, TransGen f.IsChild n.id q → q ∈ S ∧ f.record.isAllocated q := by
    intro q hq
    obtain ⟨c, hc, hrest⟩ := hcases q hq
    obtain ⟨hmem, ha, hclear, -⟩ := h c hc
    rcases reflTransGen_iff_eq_or_transGen.1 hrest with rfl | hrest
    · exact ⟨hmem, ha⟩
    · have haq := hclear.allocated q hrest
      exact ⟨hclear.walk.listed q hrest haq, haq⟩
  refine ⟨⟨fun q hq _ => (hallocated q hq).1, fun q hq hcycle => ?_⟩, fun q hq => (hallocated q hq).2⟩
  rcases reflTransGen_iff_eq_or_transGen.1 hq with rfl | hbelow
  · obtain ⟨c, hc, hrest⟩ := hcases _ hcycle
    exact (h c hc).2.2.2 hrest
  · obtain ⟨c, hc, hrest⟩ := hcases q hbelow
    exact (h c hc).2.2.1.walk.loopless q hrest hcycle

end ClearBelow

end Below

/-! ## (7) Trees have no loops -/

open RowIndex.Tree

/-- **The children of a tree that the file holds lead nowhere back.** -/
theorem Holds.loopless {f : PageFile} {t : Tree} (h : f.Holds t) : Loopless f.IsChild t.page :=
  fun _ hp => h.not_transGen_self (h.mem_pages_of_reached hp)

/-- Its pages are allocated. -/
theorem Holds.isAllocated_of_reached {f : PageFile} {t : Tree} (h : f.Holds t) {p : PageId}
    (hp : ReflTransGen f.IsChild t.page p) : f.record.isAllocated p := by
  obtain ⟨s, hs, rfl⟩ := List.mem_map.1 (h.mem_pages_of_reached hp)
  exact isAllocated_of_readPage (h s hs)

/-- A page that cannot be read leads nowhere. -/
theorem loopless_isNext_of_not_isAllocated {f : PageFile} {p : PageId}
    (hp : ¬ f.record.isAllocated p) : Loopless f.IsNext p :=
  .of_next fun _ ⟨_, hn, _⟩ => absurd (isAllocated_of_readPage hn) hp

/-- **Leaves that are linked up to a page that cannot be read lead nowhere back.** -/
theorem HoldsLeaves.loopless {f : PageFile} {ls : List Leaf} (h : f.HoldsLeaves ls) {stop : PageId}
    (hlinked : Linked ls stop) (hstop : ¬ f.record.isAllocated stop) :
    Loopless f.IsNext (firstId ls stop) ∧ ∀ l ∈ ls, Loopless f.IsNext l.id := by
  induction ls with
  | nil => exact ⟨loopless_isNext_of_not_isAllocated hstop, fun _ hl => absurd hl List.not_mem_nil⟩
  | cons l ls ih =>
    obtain ⟨hhead, htail⟩ := linked_cons.1 hlinked
    obtain ⟨hfirst, hrest⟩ := ih (fun m hm => h m (List.mem_cons_of_mem _ hm)) htail
    have hl : Loopless f.IsNext l.id := by
      refine .of_next ?_
      rintro q ⟨n, hn, rfl⟩
      obtain rfl := Except.ok.inj ((h l List.mem_cons_self).symm.trans hn)
      rwa [show l.node.next = firstId ls stop from hhead]
    exact ⟨hl, List.forall_mem_cons.2 ⟨hl, hrest⟩⟩

/-- **Nor does the leaf chain of a tree**, from any of its pages. -/
theorem Carries.loopless_isNext {f : PageFile} {height : Nat} {t : Tree} (h : f.Carries height t)
    {p : PageId} (hp : ReflTransGen f.IsChild f.root p) : Loopless f.IsNext p := by
  obtain ⟨stop, hstop, hlinked⟩ := h.linked
  have hnone : ∀ q : PageId, ¬ q.isValid → ¬ f.record.isAllocated q :=
    fun q hq ha => hq (Metadata.isValid_of_isAllocated ha)
  rw [← h.page] at hp
  obtain ⟨s, hs, rfl⟩ := List.mem_map.1 (h.held.mem_pages_of_reached hp)
  cases s with
  | leaf id es next =>
    exact (h.held.leaves.loopless hlinked (hnone stop hstop)).2 ⟨id, es, next⟩ (mem_leaves_iff.2 hs)
  | branch id keys children =>
    -- an internal node has no next page
    refine .of_next ?_
    rintro q ⟨n, hn, rfl⟩
    obtain rfl := Except.ok.inj ((h.held _ hs).symm.trans hn)
    exact loopless_isNext_of_not_isAllocated (hnone .none (by decide))

/-- **What an index that passes its audit leads to** has no loops and lies in the file. -/
theorem loopless_of_verify {f : PageFile} {s : TreeStats} (h : f.verify = .ok s) :
    Loopless f.IsChild f.root ∧ (∀ p, ReflTransGen f.IsChild f.root p → Loopless f.IsNext p) ∧
      ∀ q, TransGen f.IsChild f.root q → f.record.isAllocated q := by
  obtain ⟨hno, -⟩ | ⟨height, t, ht, -⟩ := verify_eq_ok_iff.1 h
  · -- without a root there is nothing to lead to
    have hroot : ¬ f.record.isAllocated f.root := fun ha => hno (Metadata.isValid_of_isAllocated ha)
    have hchild : ∀ q, ¬ f.IsChild f.root q :=
      fun q ⟨_, hn, _⟩ => hroot (isAllocated_of_readPage hn)
    refine ⟨.of_next fun q hq => absurd hq (hchild q), fun p hp => ?_, fun q hq => ?_⟩
    · rcases ReflTransGen.cases_head hp with rfl | ⟨q, hq, -⟩
      · exact loopless_isNext_of_not_isAllocated hroot
      · exact absurd hq (hchild q)
    · obtain ⟨c, hc, -⟩ := TransGen.head'_iff.1 hq
      exact absurd hc (hchild c)
  · rw [← ht.page]
    exact ⟨ht.held.loopless, fun p hp => ht.loopless_isNext (ht.page ▸ hp),
      fun q hq => ht.held.isAllocated_of_reached hq.to_reflTransGen⟩

end PageFile

end RowIndex
