import RowIndex.Proofs.LeafChain
import Mathlib.Logic.Relation

/-! # How trees grow

An insertion splits full nodes on its way down and puts one entry into a leaf. These steps are
relations between trees, and each keeps what makes a tree sound.

* **`Tree.Halves`** — a node, its two halves and the separator between them.
* **`Tree.Split`** — one node somewhere below the top is split; `Tree.Splits` is any number of splits.
* **`Tree.Raised`** — a full root is split below a new one.
* **`Tree.Put`** — an entry is put into the leaf that its key belongs to.
* **`Splits.entries`**, `Put.entries` — splits keep all entries; a put adds one, behind those with keys
  that are not above its own.
* **`Splits.ordered`**, `Put.ordered` — the nodes keep the rules.
* **`Splits.linked`**, `Put.linked` — the leaves stay linked. -/

namespace RowIndex.Tree

/-! ## (1) What the chain sees of the leaves -/

/-- The page and the link of each leaf. -/
def links (ls : List Leaf) : List (PageId × PageId) :=
  ls.map fun l => (l.id, l.next)

/-- Where the chain starts depends on the pages of the leaves only. -/
theorem firstId_congr {ls ms : List Leaf} (h : links ls = links ms) (stop : PageId) :
    firstId ls stop = firstId ms stop := by
  cases ls with
  | nil => rw [List.map_eq_nil_iff.1 h.symm]
  | cons l ls =>
    cases ms with
    | nil => cases h
    | cons m ms => exact congrArg Prod.fst (List.cons.inj h).1

/-- Whether leaves are linked depends on their pages and links only. -/
theorem linked_congr {ls ms : List Leaf} (h : links ls = links ms) {stop : PageId} :
    Linked ls stop ↔ Linked ms stop := by
  induction ls generalizing ms with
  | nil => rw [List.map_eq_nil_iff.1 h.symm]
  | cons l ls ih =>
    cases ms with
    | nil => cases h
    | cons m ms =>
      obtain ⟨hhead, htail⟩ := List.cons.inj h
      have hnext : l.next = m.next := congrArg Prod.snd hhead
      rw [linked_cons, linked_cons, hnext, firstId_congr htail, ih htail]

theorem links_append (ls ms : List Leaf) : links (ls ++ ms) = links ls ++ links ms :=
  List.map_append

/-- **A part of a chain may be replaced** by one that starts at the same page and stays linked. -/
theorem linked_replace {before ls ms after : List Leaf} {stop : PageId}
    (hfirst : ∀ stop, firstId ms stop = firstId ls stop)
    (hlinked : ∀ stop, Linked ls stop → Linked ms stop)
    (h : Linked (before ++ (ls ++ after)) stop) : Linked (before ++ (ms ++ after)) stop := by
  obtain ⟨hbefore, hrest⟩ := linked_append.1 h
  obtain ⟨hls, hafter⟩ := linked_append.1 hrest
  refine linked_append.2 ⟨?_, linked_append.2 ⟨hlinked _ hls, hafter⟩⟩
  rwa [firstId_append, hfirst, ← firstId_append]

/-! ## (2) The two halves of a node -/

/-- **A full node and its two halves**, the second on page `sibling`, with the separator between them.
The second half of a leaf starts with the separator; a branch gives the separator away. -/
inductive Halves (sibling : PageId) : Tree → Tree → Int32 → Tree → Prop
  /-- A leaf. -/
  | leaf {id next : PageId} {entry : Int32 × RowId} {front back : List (Int32 × RowId)} :
      front.length = Layout.minDegree → back.length + 1 = Layout.minDegree →
        Halves sibling (.leaf id (front ++ entry :: back) next)
          (.leaf id front sibling) entry.1 (.leaf sibling (entry :: back) next)
  /-- A branch. -/
  | branch {id : PageId} {key : Int32} {front back : List Int32} {ts us : List Tree} :
      front.length = Layout.minDegree → back.length + 1 = Layout.minDegree →
        ts.length = front.length + 1 →
          Halves sibling (.branch id (front ++ key :: back) (ts ++ us))
            (.branch id front ts) key (.branch sibling back us)

namespace Halves

variable {sibling : PageId} {c l r : Tree} {key : Int32} (h : Halves sibling c l key r)

include h

theorem page_left : l.page = c.page := by
  cases h <;> rfl

theorem page_right : r.page = sibling := by
  cases h <;> rfl

theorem entries : l.entries ++ r.entries = c.entries := by
  cases h with
  | leaf => simp
  | branch => simp

theorem pages_perm : (l.pages ++ r.pages).Perm (sibling :: c.pages) := by
  cases h with
  | leaf => simpa using List.Perm.swap _ _ []
  | branch =>
    simp only [pages_branch, List.flatMap_append, List.cons_append]
    exact (List.perm_middle.cons _).trans (List.Perm.swap _ _ _)

theorem firstId (stop : PageId) :
    Tree.firstId (l.leaves ++ r.leaves) stop = Tree.firstId c.leaves stop := by
  cases h with
  | leaf => simp
  | branch => simp

theorem linked {stop : PageId} (hlinked : Linked c.leaves stop) :
    Linked (l.leaves ++ r.leaves) stop := by
  cases h with
  | leaf => simpa using hlinked
  | branch => simpa using hlinked

/-- The nodes below the first half were below the node. -/
theorem of_mem_left {s : Tree} (hs : s ∈ l.subtrees) : s = l ∨ s ∈ c.subtrees.tail := by
  cases h with
  | leaf => simpa using hs
  | branch =>
    rw [subtrees_branch, List.mem_cons] at hs
    refine hs.imp_right fun hs => ?_
    rw [subtrees_branch, List.tail_cons, List.flatMap_append]
    exact List.mem_append_left _ hs

/-- The nodes below the second half were below the node. -/
theorem of_mem_right {s : Tree} (hs : s ∈ r.subtrees) : s = r ∨ s ∈ c.subtrees.tail := by
  cases h with
  | leaf => simpa using hs
  | branch =>
    rw [subtrees_branch, List.mem_cons] at hs
    refine hs.imp_right fun hs => ?_
    rw [subtrees_branch, List.tail_cons, List.flatMap_append]
    exact List.mem_append_right _ hs

/-- The separator is one of the keys. -/
theorem key_mem : key ∈ c.keys := by
  cases h with
  | leaf => simp
  | branch => simp

/-- The first half starts as the node did. -/
theorem least : l.least = c.least := by
  cases h with
  | leaf hfront _ =>
    obtain ⟨e, es, rfl⟩ := List.exists_cons_of_length_pos (Nat.lt_of_lt_of_eq (by decide) hfront.symm)
    simp
  | branch _ _ hlen =>
    obtain ⟨t, ts, rfl⟩ := List.exists_cons_of_length_eq_add_one hlen
    simp

/-- **The halves of an ordered node are ordered**, with the separator between them. -/
theorem row {height : Nat} {lower upper : Option Int32} (hordered : Ordered height lower upper c) :
    Row (Ordered height) lower upper [key] [l, r] := by
  rw [row_cons_iff, row_nil_iff, leastOf_cons]
  cases h with
  | leaf =>
    cases height with
    | zero =>
      rw [ordered_leaf_iff, List.map_append, List.map_cons] at hordered
      exact ⟨ordered_leaf_iff.2 hordered.left, by simp, ordered_leaf_iff.2 hordered.rightFrom⟩
    | succ height => exact absurd hordered (by simp [Ordered])
  | branch hfront hback hlen =>
    cases height with
    | zero => exact absurd hordered (by simp [Ordered])
    | succ height =>
      obtain ⟨-, hkeys, hrow⟩ := ordered_branch_iff.1 hordered
      -- the separator is the first key of the second half, since it was that of its first subtree
      obtain ⟨hleft, hleast, hright⟩ := (row_append_iff hlen).1 hrow
      have hfront' := List.ne_nil_of_length_pos (Nat.lt_of_lt_of_eq (by decide) hfront.symm)
      have hback' := List.ne_nil_of_length_pos
        (Nat.lt_of_lt_of_eq (by decide) (Nat.eq_sub_of_add_eq hback).symm)
      refine ⟨ordered_branch_iff.2 ⟨hfront', hkeys.left, hleft⟩, ?_,
        ordered_branch_iff.2 ⟨hback', hkeys.right, hright⟩⟩
      rw [Tree.least_branch_eq, hleast]

end Halves

/-! ## (3) Splits -/

/-- **One node below the top is split**, its second half going to page `sibling`. -/
inductive Split (sibling : PageId) : Tree → Tree → Prop
  /-- A child of the top. -/
  | here {id : PageId} {key : Int32} {front back : List Int32} {ts us : List Tree} {c l r : Tree} :
      Halves sibling c l key r → ts.length = front.length →
        Split sibling (.branch id (front ++ back) (ts ++ c :: us))
          (.branch id (front ++ key :: back) (ts ++ l :: r :: us))
  /-- A node further below. -/
  | inside {id : PageId} {keys : List Int32} {ts us : List Tree} {c c' : Tree} :
      Split sibling c c' →
        Split sibling (.branch id keys (ts ++ c :: us)) (.branch id keys (ts ++ c' :: us))

/-- **Any number of splits.** -/
def Splits : Tree → Tree → Prop :=
  Relation.ReflTransGen fun t t' => ∃ sibling, Split sibling t t'

/-- New members come to the front of a row when a part of it is replaced. -/
theorem perm_replace {N V C A B : List PageId} (h : V.Perm (N ++ C)) (p : PageId) :
    (p :: (A ++ (V ++ B))).Perm (N ++ p :: (A ++ (C ++ B))) := by
  have hpart : (A ++ (V ++ B)).Perm (N ++ (A ++ (C ++ B))) := by
    refine ((h.append_right B).append_left A).trans ?_
    rw [List.append_assoc]
    exact List.perm_append_comm_assoc A N (C ++ B)
  exact (hpart.cons p).trans List.perm_middle.symm

/-- The least key of a row depends on the least key of each subtree only. -/
theorem leastOf_replace {ts us vs : List Tree} {c : Tree} (h : leastOf vs = c.least)
    (hne : vs ≠ []) : leastOf (ts ++ (vs ++ us)) = leastOf (ts ++ c :: us) := by
  cases ts with
  | nil => rw [List.nil_append, List.nil_append, leastOf_append hne, leastOf_cons, h]
  | cons t ts => rw [List.cons_append, List.cons_append, leastOf_cons, leastOf_cons]

/-- The separators before and behind a subtree of a row. -/
theorem Row.exists_split {P : Option Int32 → Option Int32 → Tree → Prop}
    {lower upper : Option Int32} {keys : List Int32} {ts us : List Tree} {c : Tree}
    (h : Row P lower upper keys (ts ++ c :: us)) :
    ∃ front back, keys = front ++ back ∧ ts.length = front.length := by
  have hlen := h.length_eq
  rw [List.length_append, List.length_cons] at hlen
  refine ⟨keys.take ts.length, keys.drop ts.length, (List.take_append_drop _ _).symm, ?_⟩
  rw [List.length_take]
  omega

namespace Split

variable {sibling : PageId} {t t' : Tree} (h : Split sibling t t')

include h

theorem page : t'.page = t.page := by
  cases h <;> rfl

theorem entries : t'.entries = t.entries := by
  induction h with
  | here hhalves _ => simp [← hhalves.entries]
  | inside _ ih => simp [ih]

theorem pages_perm : t'.pages.Perm (sibling :: t.pages) := by
  induction h with
  | here hhalves _ =>
    simp only [pages_branch, List.flatMap_append, List.flatMap_cons]
    rw [← List.append_assoc _ _ (List.flatMap _ _)]
    exact perm_replace (N := [sibling]) hhalves.pages_perm _
  | inside _ ih =>
    simp only [pages_branch, List.flatMap_append, List.flatMap_cons]
    exact perm_replace (N := [sibling]) ih _

/-- A split keeps the first key of the tree. -/
theorem least : t'.least = t.least := by
  induction h with
  | here hhalves _ =>
    rw [least_branch_eq, least_branch_eq]
    exact leastOf_replace (by rw [leastOf_cons, hhalves.least]) (List.cons_ne_nil _ [_])
  | inside _ ih =>
    rw [least_branch_eq, least_branch_eq]
    exact leastOf_replace (by rw [leastOf_cons, ih]) (List.cons_ne_nil _ [])

theorem firstId (stop : PageId) : Tree.firstId t'.leaves stop = Tree.firstId t.leaves stop := by
  induction h generalizing stop with
  | here hhalves _ =>
    simp only [leaves_branch, List.flatMap_append, List.flatMap_cons, firstId_append]
    rw [← hhalves.firstId, firstId_append]
  | inside _ ih =>
    simp only [leaves_branch, List.flatMap_append, List.flatMap_cons, firstId_append, ih]

/-- A split keeps the leaves linked. -/
theorem linked {stop : PageId} (hlinked : Linked t.leaves stop) : Linked t'.leaves stop := by
  induction h generalizing stop with
  | here hhalves _ =>
    simp only [leaves_branch, List.flatMap_append, List.flatMap_cons] at hlinked ⊢
    rw [← List.append_assoc (leaves _) (leaves _)]
    exact linked_replace hhalves.firstId (fun _ => hhalves.linked) hlinked
  | inside hinside ih =>
    simp only [leaves_branch, List.flatMap_append, List.flatMap_cons] at hlinked ⊢
    exact linked_replace hinside.firstId (fun _ => ih) hlinked

/-- **A split keeps a tree ordered.** -/
theorem ordered {height : Nat} {lower upper : Option Int32} (hordered : Ordered height lower upper t) :
    Ordered height lower upper t' := by
  induction h generalizing height lower upper with
  | here hhalves hlen =>
    cases height with
    | zero => exact absurd hordered (by simp [Ordered])
    | succ height =>
      obtain ⟨-, hkeys, hrow⟩ := ordered_branch_iff.1 hordered
      obtain ⟨hc, hfirst, hreplace⟩ := hrow.focus hlen
      have hkey := hc.keysFit.within _ hhalves.key_mem
      -- two halves in place of the child, between the same bounds
      have hrow' := hreplace [_] [_, _] (hhalves.row hc) (by
        rw [leastOf_cons, hhalves.least]
        exact hfirst)
      exact ordered_branch_iff.2 ⟨by simp, hkeys.insert hkey, by simpa using hrow'⟩
  | inside hinside ih =>
    cases height with
    | zero => exact absurd hordered (by simp [Ordered])
    | succ height =>
      obtain ⟨hne, hkeys, hrow⟩ := ordered_branch_iff.1 hordered
      obtain ⟨front, back, rfl, hlen⟩ := hrow.exists_split
      obtain ⟨hc, hfirst, hreplace⟩ := hrow.focus hlen
      have hrow' := hreplace [] [_] (row_nil_iff.2 (ih hc)) (by
        rw [leastOf_cons, hinside.least]
        exact hfirst)
      rw [List.append_nil] at hrow'
      exact ordered_branch_iff.2 ⟨hne, hkeys, by simpa using hrow'⟩

end Split

namespace Splits

variable {t t' : Tree}

theorem refl (t : Tree) : Splits t t :=
  Relation.ReflTransGen.refl

theorem single {sibling : PageId} (h : Split sibling t t') : Splits t t' :=
  Relation.ReflTransGen.single ⟨sibling, h⟩

theorem trans {t'' : Tree} (h : Splits t t') (h' : Splits t' t'') : Splits t t'' :=
  Relation.ReflTransGen.trans h h'

/-- Splits below a child are splits below the top. -/
theorem inside {c c' : Tree} (h : Splits c c') (id : PageId) (keys : List Int32)
    (ts us : List Tree) :
    Splits (.branch id keys (ts ++ c :: us)) (.branch id keys (ts ++ c' :: us)) := by
  induction h with
  | refl => exact refl _
  | tail _ hstep ih =>
    obtain ⟨sibling, hsplit⟩ := hstep
    exact ih.trans (single hsplit.inside)

/-- **What every split keeps, any number of splits keep.** -/
theorem keeps {P : Tree → Prop}
    (hstep : ∀ sibling t t', Split sibling t t' → P t → P t') (h : Splits t t') (ht : P t) :
    P t' := by
  induction h with
  | refl => exact ht
  | tail _ hsplit ih =>
    obtain ⟨sibling, hsplit⟩ := hsplit
    exact hstep sibling _ _ hsplit ih

theorem page (h : Splits t t') : t'.page = t.page :=
  h.keeps (P := fun s => s.page = t.page) (fun _ _ _ hsplit hs => hsplit.page.trans hs) rfl

/-- **Splits keep all entries.** -/
theorem entries (h : Splits t t') : t'.entries = t.entries :=
  h.keeps (P := fun s => s.entries = t.entries) (fun _ _ _ hsplit hs => hsplit.entries.trans hs) rfl

/-- **Splits keep a tree ordered.** -/
theorem ordered {height : Nat} {lower upper : Option Int32} (h : Splits t t')
    (ht : Ordered height lower upper t) : Ordered height lower upper t' :=
  h.keeps (fun _ _ _ hsplit hs => hsplit.ordered hs) ht

/-- **Splits keep the leaves linked.** -/
theorem linked {stop : PageId} (h : Splits t t') (ht : Linked t.leaves stop) :
    Linked t'.leaves stop :=
  h.keeps (P := fun s => Linked s.leaves stop) (fun _ _ _ hsplit hs => hsplit.linked hs) ht

end Splits

/-- **A tree before an insertion goes down**: as it was, or its full root is split below a new one. -/
inductive Raised (t : Tree) : Tree → Prop
  /-- The root has room. -/
  | same : Raised t t
  /-- A new root has the halves of the old one as its children. -/
  | above {id sibling : PageId} {key : Int32} {l r : Tree} :
      Halves sibling t l key r → Raised t (.branch id [key] [l, r])

/-- **A new root keeps all entries.** -/
theorem Raised.entries {t t' : Tree} (h : Raised t t') : t'.entries = t.entries := by
  cases h with
  | same => rfl
  | above hhalves => simp [← hhalves.entries]

/-! ## (4) Putting an entry into a leaf -/

/-- **An entry is put into the leaf that its key belongs to**: at every branch, to the right of the
separators that are not above the key, and in the leaf behind the keys that are not above it. -/
inductive Put (key : Int32) (value : RowId) : Tree → Tree → Prop
  /-- Into a leaf. -/
  | leaf {id next : PageId} {front back : List (Int32 × RowId)} :
      (∀ e ∈ front, e.1 ≤ key) → (∀ e ∈ back, key < e.1) →
        Put key value (.leaf id (front ++ back) next) (.leaf id (front ++ (key, value) :: back) next)
  /-- Below a child. -/
  | branch {id : PageId} {front back : List Int32} {ts us : List Tree} {c c' : Tree} :
      (∀ k ∈ front, k ≤ key) → (∀ k ∈ back, key < k) → ts.length = front.length →
        Put key value c c' →
          Put key value (.branch id (front ++ back) (ts ++ c :: us))
            (.branch id (front ++ back) (ts ++ c' :: us))

namespace Put

variable {key : Int32} {value : RowId} {t t' : Tree} (h : Put key value t t')

include h

theorem page : t'.page = t.page := by
  cases h <;> rfl

theorem links_eq : links t'.leaves = links t.leaves := by
  induction h with
  | leaf => simp [links]
  | branch _ _ _ _ ih =>
    simp only [leaves_branch, List.flatMap_append, List.flatMap_cons, links_append, ih]

/-- A put keeps the leaves linked. -/
theorem linked {stop : PageId} (ht : Linked t.leaves stop) : Linked t'.leaves stop :=
  (linked_congr h.links_eq).2 ht

/-- A put keeps a first key that is not above its own. -/
theorem least {k : Int32} (ht : t.least = some k) (hk : k ≤ key) : t'.least = some k := by
  induction h with
  | @leaf _ _ front back _ hback =>
    rw [least_leaf] at ht ⊢
    cases front with
    | nil =>
      cases back with
      | nil => cases ht
      | cons e back =>
        cases ht
        exact absurd hk (Int32.not_le.2 (hback e List.mem_cons_self))
    | cons e front => exact ht
  | @branch _ _ _ ts _ _ _ _ _ _ _ ih =>
    rw [least_branch_eq] at ht ⊢
    cases ts with
    | nil => exact ih ht
    | cons t ts => exact ht

/-- **A put keeps a tree ordered**, if the key lies between its bounds. -/
theorem ordered {height : Nat} {lower upper : Option Int32} (ht : Ordered height lower upper t)
    (hkey : Within lower upper key) : Ordered height lower upper t' := by
  induction h generalizing height lower upper with
  | leaf hfront hback =>
    cases height with
    | zero =>
      rw [ordered_leaf_iff, List.map_append] at ht ⊢
      refine ht.insert (hkey.gap ?_ ?_)
      · simpa using fun k v hmem => hfront (k, v) hmem
      · simpa using fun k v hmem => Int32.le_of_lt (hback (k, v) hmem)
    | succ height => exact absurd ht (by simp [Ordered])
  | branch hfront hback hlen hput ih =>
    cases height with
    | zero => exact absurd ht (by simp [Ordered])
    | succ height =>
      obtain ⟨hne, hkeys, hrow⟩ := ordered_branch_iff.1 ht
      obtain ⟨hc, hfirst, hreplace⟩ := hrow.focus hlen
      have hgap := hkey.gap hfront fun k hk => Int32.le_of_lt (hback k hk)
      have hrow' := hreplace [] [_] (row_nil_iff.2 (ih hc hgap)) (fun k hk => by
        rw [leastOf_cons]
        exact hput.least (hfirst k hk) (hfront k (List.mem_of_getLast? hk)))
      exact ordered_branch_iff.2 ⟨hne, hkeys, by simpa using hrow'⟩

/-- **A put adds one entry**, behind all entries with keys that are not above its own. -/
theorem entries {height : Nat} {lower upper : Option Int32} (ht : Ordered height lower upper t) :
    ∃ front back, t.entries = front ++ back ∧ t'.entries = front ++ (key, value) :: back ∧
      (∀ e ∈ front, e.1 ≤ key) ∧ ∀ e ∈ back, key < e.1 := by
  induction h generalizing height lower upper with
  | leaf hfront hback => exact ⟨_, _, entries_leaf _ _ _, entries_leaf _ _ _, hfront, hback⟩
  | @branch _ _ _ ts us _ _ hfront hback hlen _ ih =>
    cases height with
    | zero => exact absurd ht (by simp [Ordered])
    | succ height =>
      obtain ⟨-, -, hrow⟩ := ordered_branch_iff.1 ht
      obtain ⟨hleft, hright⟩ := hrow.sides hlen
      obtain ⟨before, after, hc, hc', hbefore, hafter⟩ := ih (hrow.focus hlen).1
      refine ⟨ts.flatMap Tree.entries ++ before, after ++ us.flatMap Tree.entries, ?_, ?_, ?_, ?_⟩
      · simp [hc]
      · simp [hc']
      · intro e he
        rcases List.mem_append.1 he with he | he
        · obtain ⟨t, hmem, he⟩ := List.mem_flatMap.1 he
          obtain ⟨k, hk, hle⟩ := hleft t hmem e he
          exact Int32.le_trans hle (hfront k hk)
        · exact hbefore e he
      · intro e he
        rcases List.mem_append.1 he with he | he
        · exact hafter e he
        · obtain ⟨u, hmem, he⟩ := List.mem_flatMap.1 he
          obtain ⟨k, hk, hle⟩ := hright u hmem e he
          exact Int32.lt_of_lt_of_le (hback k hk) hle

end Put

end RowIndex.Tree
