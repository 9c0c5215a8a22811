import RowIndex.Tree.Audit
import RowIndex.Proofs.Subtrees

/-! # Ordered trees

The rules that an audit checks at the nodes, as one predicate on trees.

* **`Within`**, `KeysFit` — keys between two bounds, each of which may be missing.
* **`Tree.Row`** — subtrees in a row with separators between them: each subtree satisfies a predicate
  between the separators around it, and starts with the separator to its left.
* **`Tree.Ordered`** — a tree of some height, all of whose nodes keep the rules.
* **`Row.focus`** — one subtree of a row may be replaced by a row between the same bounds.
* **`Ordered.keysFit_entries`** — the entries of an ordered tree ascend from leaf to leaf.
* **`violations_eq_nil_iff`** — an audit finds nothing at the nodes of ordered trees, and of no
  others. -/

namespace RowIndex

/-! ## (1) Keys between bounds -/

/-- **Whether a key lies between two bounds**, each of which may be missing. -/
structure Within (lower upper : Option Int32) (key : Int32) : Prop where
  /-- The key is not below the lower bound. -/
  lower : ∀ bound ∈ lower, bound ≤ key
  /-- The key is not above the upper bound. -/
  upper : ∀ bound ∈ upper, key ≤ bound

/-- **Keys that ascend between two bounds.** -/
structure KeysFit (lower upper : Option Int32) (keys : List Int32) : Prop where
  /-- No key is above a later one. -/
  sorted : keys.Pairwise (· ≤ ·)
  /-- All keys lie between the bounds. -/
  within : ∀ key ∈ keys, Within lower upper key

theorem within_none (key : Int32) : Within none none key :=
  ⟨fun _ h => absurd h (by simp), fun _ h => absurd h (by simp)⟩

namespace KeysFit

variable {lower upper : Option Int32} {key : Int32} {front back keys : List Int32}

/-- One key between the bounds. -/
theorem singleton (h : Within lower upper key) : KeysFit lower upper [key] :=
  ⟨List.pairwise_singleton _ _, List.forall_mem_singleton.2 h⟩

/-- **Keys up to a key and keys from that key on** make keys between the outer bounds. -/
theorem append (hfront : KeysFit lower (some key) front) (hkey : Within lower upper key)
    (hback : KeysFit (some key) upper back) : KeysFit lower upper (front ++ back) := by
  have hle : ∀ a ∈ front, a ≤ key := fun a ha => (hfront.within a ha).upper key rfl
  have hge : ∀ b ∈ back, key ≤ b := fun b hb => (hback.within b hb).lower key rfl
  refine ⟨List.pairwise_append.2 ⟨hfront.sorted, hback.sorted, ?_⟩, ?_⟩
  · intro a ha b hb
    exact Int32.le_trans (hle a ha) (hge b hb)
  · intro k hk
    rcases List.mem_append.1 hk with hk | hk
    · refine ⟨(hfront.within k hk).lower, fun bound hb => ?_⟩
      exact Int32.le_trans (hle k hk) (hkey.upper bound hb)
    · refine ⟨fun bound hb => ?_, (hback.within k hk).upper⟩
      exact Int32.le_trans (hkey.lower bound hb) (hge k hk)

/-- The keys up to one of them. -/
theorem left (h : KeysFit lower upper (front ++ key :: back)) :
    KeysFit lower (some key) front := by
  have hsorted := List.pairwise_append.1 h.sorted
  refine ⟨hsorted.1, fun k hk => ⟨(h.within k (List.mem_append_left _ hk)).lower, ?_⟩⟩
  rintro bound hb
  cases hb
  exact hsorted.2.2 k hk key List.mem_cons_self

/-- The keys after one of them. -/
theorem right (h : KeysFit lower upper (front ++ key :: back)) :
    KeysFit (some key) upper back := by
  have hsorted := List.pairwise_cons.1 (List.pairwise_append.1 h.sorted).2.1
  have hmem : ∀ k ∈ back, k ∈ front ++ key :: back :=
    fun k hk => List.mem_append_right _ (List.mem_cons_of_mem _ hk)
  refine ⟨hsorted.2, fun k hk => ⟨?_, (h.within k (hmem k hk)).upper⟩⟩
  rintro bound hb
  cases hb
  exact hsorted.1 k hk

/-- The keys from one of them on. -/
theorem rightFrom (h : KeysFit lower upper (front ++ key :: back)) :
    KeysFit (some key) upper (key :: back) := by
  have hsorted := (List.pairwise_append.1 h.sorted).2.1
  refine ⟨hsorted, fun k hk => ⟨?_, (h.within k (List.mem_append_right _ hk)).upper⟩⟩
  rintro bound hb
  cases hb
  rcases List.mem_cons.1 hk with rfl | hk
  · exact Int32.le_refl k
  · exact (List.pairwise_cons.1 hsorted).1 k hk

/-- The keys at the front. -/
theorem before (h : KeysFit lower upper (front ++ back)) : KeysFit lower upper front :=
  ⟨(List.pairwise_append.1 h.sorted).1, fun k hk => h.within k (List.mem_append_left _ hk)⟩

/-- The first key lies between the bounds. -/
theorem head (h : KeysFit lower upper (key :: back)) : Within lower upper key :=
  h.within key List.mem_cons_self

/-- The keys after the first. -/
theorem tail (h : KeysFit lower upper (key :: back)) : KeysFit (some key) upper back := by
  rw [← List.nil_append (key :: back)] at h
  exact h.right

end KeysFit

/-! ## (2) The gap that a key falls into -/

/-- The lower bound of the gap behind `front`. -/
def gapLower (lower : Option Int32) (front : List Int32) : Option Int32 :=
  front.getLast?.or lower

/-- The upper bound of the gap before `back`. -/
def gapUpper (upper : Option Int32) (back : List Int32) : Option Int32 :=
  back.head?.or upper

@[simp] theorem gapLower_nil (lower : Option Int32) : gapLower lower [] = lower := rfl

theorem gapLower_cons (lower : Option Int32) (key : Int32) (front : List Int32) :
    gapLower lower (key :: front) = gapLower (some key) front := by
  rw [gapLower, gapLower, List.getLast?_cons]
  cases front.getLast? <;> rfl

@[simp] theorem gapUpper_nil (upper : Option Int32) : gapUpper upper [] = upper := rfl

@[simp] theorem gapUpper_cons (upper : Option Int32) (key : Int32) (back : List Int32) :
    gapUpper upper (key :: back) = some key := rfl

theorem gapUpper_drop {keys : List Int32} {i : Nat} {key : Int32} (h : keys[i]? = some key)
    (upper : Option Int32) : gapUpper upper (keys.drop i) = some key := by
  rw [gapUpper, List.head?_drop, h]
  rfl

theorem gapLower_take {keys : List Int32} {i : Nat} {key : Int32} (h : keys[i]? = some key)
    (lower : Option Int32) : gapLower lower (keys.take (i + 1)) = some key := by
  rw [gapLower, List.getLast?_take, if_neg (Nat.succ_ne_zero i), Nat.add_sub_cancel, h]
  rfl

/-- **A key that is not below the keys before the gap and not above those behind it** lies in the
gap. -/
theorem Within.gap {lower upper : Option Int32} {front back : List Int32} {key : Int32}
    (h : Within lower upper key) (hfront : ∀ k ∈ front, k ≤ key) (hback : ∀ k ∈ back, key ≤ k) :
    Within (gapLower lower front) (gapUpper upper back) key := by
  constructor
  · intro bound hb
    rcases Option.or_eq_some_iff.1 hb with hb | ⟨-, hb⟩
    · exact hfront bound (List.mem_of_getLast? hb)
    · exact h.lower bound hb
  · intro bound hb
    rcases Option.or_eq_some_iff.1 hb with hb | ⟨-, hb⟩
    · exact hback bound (List.mem_of_head? hb)
    · exact h.upper bound hb

/-- The keys behind a gap. -/
theorem KeysFit.behind {lower upper : Option Int32} {front back : List Int32}
    (h : KeysFit lower upper (front ++ back)) : KeysFit (gapLower lower front) upper back := by
  obtain ⟨-, hback, hcross⟩ := List.pairwise_append.1 h.sorted
  refine ⟨hback, fun k hk => ⟨fun bound hb => ?_, ?_⟩⟩
  · rcases Option.or_eq_some_iff.1 hb with hb | ⟨-, hb⟩
    · exact hcross bound (List.mem_of_getLast? hb) k hk
    · exact (h.within k (List.mem_append_right _ hk)).lower bound hb
  · exact (h.within k (List.mem_append_right _ hk)).upper

/-- **A key in a gap between the keys may be put there.** -/
theorem KeysFit.insert {lower upper : Option Int32} {front back : List Int32} {key : Int32}
    (h : KeysFit lower upper (front ++ back))
    (hkey : Within (gapLower lower front) (gapUpper upper back) key) :
    KeysFit lower upper (front ++ key :: back) := by
  obtain ⟨hf, hb, hfb⟩ := List.pairwise_append.1 h.sorted
  have hfront : ∀ k ∈ front, k ≤ key := by
    intro k hk
    obtain ⟨init, last, rfl⟩ : ∃ init last, front = init ++ [last] :=
      ⟨_, _, (List.dropLast_concat_getLast (List.ne_nil_of_mem hk)).symm⟩
    have hlast : last ≤ key := hkey.lower last (by simp [gapLower])
    rcases List.mem_append.1 hk with hk | hk
    · exact Int32.le_trans ((List.pairwise_append.1 hf).2.2 k hk last (by simp)) hlast
    · rw [List.mem_singleton.1 hk]
      exact hlast
  have hback : ∀ k ∈ back, key ≤ k := by
    intro k hk
    cases back with
    | nil => cases hk
    | cons first rest =>
      have hfirst : key ≤ first := hkey.upper first rfl
      rcases List.mem_cons.1 hk with rfl | hk
      · exact hfirst
      · exact Int32.le_trans hfirst ((List.pairwise_cons.1 hb).1 k hk)
  -- the outer bounds follow from the neighbours, or are the gap's own where there is none
  have hmid : Within lower upper key := by
    constructor
    · intro bound hbound
      cases hlast : front.getLast? with
      | none => exact hkey.lower bound (by simp [gapLower, hlast, hbound])
      | some last =>
        have hmem := List.mem_of_getLast? hlast
        have hle := (h.within last (List.mem_append_left _ hmem)).lower bound hbound
        exact Int32.le_trans hle (hfront last hmem)
    · intro bound hbound
      cases back with
      | nil => exact hkey.upper bound hbound
      | cons first rest =>
        have hmem : first ∈ front ++ first :: rest := List.mem_append_right _ List.mem_cons_self
        have hle := (h.within first hmem).upper bound hbound
        exact Int32.le_trans (hback first List.mem_cons_self) hle
  refine ⟨List.pairwise_append.2 ⟨hf, List.pairwise_cons.2 ⟨hback, hb⟩, ?_⟩, ?_⟩
  · intro a ha b hb'
    rcases List.mem_cons.1 hb' with rfl | hb'
    · exact hfront a ha
    · exact hfb a ha b hb'
  · intro k hk
    rcases List.mem_append.1 hk with hk | hk
    · exact h.within k (List.mem_append_left _ hk)
    · rcases List.mem_cons.1 hk with rfl | hk
      · exact hmid
      · exact h.within k (List.mem_append_right _ hk)

namespace Tree

/-! ## (3) Rows of subtrees -/

@[simp] theorem leastOf_nil : leastOf [] = none := by
  simp [leastOf]

@[simp] theorem leastOf_cons (t : Tree) (ts : List Tree) : leastOf (t :: ts) = least t := by
  simp [leastOf]

theorem least_branch_eq (id : PageId) (keys : List Int32) (children : List Tree) :
    (branch id keys children).least = leastOf children := by
  rw [least]

theorem leastOf_append {ts : List Tree} (h : ts ≠ []) (us : List Tree) :
    leastOf (ts ++ us) = leastOf ts := by
  cases ts with
  | nil => exact absurd rfl h
  | cons t ts => rw [List.cons_append, leastOf_cons, leastOf_cons]

/-- A list longer than `n` has a member at place `n`. -/
theorem exists_append_cons {α : Type} (xs : List α) {n : Nat} (h : n < xs.length) :
    ∃ front x back, xs = front ++ x :: back ∧ front.length = n := by
  refine ⟨xs.take n, xs[n], xs.drop (n + 1), ?_, ?_⟩
  · rw [← List.drop_eq_getElem_cons h, List.take_append_drop]
  · rw [List.length_take]
    omega

/-- **Subtrees in a row with separators between them.** Each subtree satisfies `P` between the
separators around it, and each but the first starts with the separator to its left. -/
def Row (P : Option Int32 → Option Int32 → Tree → Prop) :
    (lower upper : Option Int32) → List Int32 → List Tree → Prop
  | lower, upper, [], [t] => P lower upper t
  | lower, upper, key :: keys, t :: ts =>
    P lower (some key) t ∧ leastOf ts = some key ∧ Row P (some key) upper keys ts
  | _, _, _, _ => False

section Row

variable {P Q : Option Int32 → Option Int32 → Tree → Prop} {lower upper : Option Int32}

@[simp] theorem row_nil_iff {t : Tree} : Row P lower upper [] [t] ↔ P lower upper t := by
  rw [Row]

@[simp] theorem row_cons_iff {key : Int32} {keys : List Int32} {t : Tree} {ts : List Tree} :
    Row P lower upper (key :: keys) (t :: ts) ↔
      P lower (some key) t ∧ leastOf ts = some key ∧ Row P (some key) upper keys ts := by
  rw [Row]

/-- A row has one subtree more than separators. -/
theorem Row.length_eq {keys : List Int32} {ts : List Tree} (h : Row P lower upper keys ts) :
    ts.length = keys.length + 1 := by
  induction keys generalizing lower ts with
  | nil =>
    match ts, h with
    | [_], _ => rfl
  | cons key keys ih =>
    match ts, h with
    | _ :: ts, h => rw [List.length_cons, List.length_cons, ih (row_cons_iff.1 h).2.2]

theorem Row.ne_nil {keys : List Int32} {ts : List Tree} (h : Row P lower upper keys ts) :
    ts ≠ [] := by
  rintro rfl
  exact absurd h.length_eq (by simp)

/-- **Other subtrees that start alike** make a row with the same separators. -/
theorem Row.map {θ : Tree → Tree} {keys : List Int32} {ts : List Tree}
    (h : Row P lower upper keys ts) (hleast : ∀ t, (θ t).least = t.least)
    (hPQ : ∀ t ∈ ts, ∀ lower upper, P lower upper t → Q lower upper (θ t)) :
    Row Q lower upper keys (ts.map θ) := by
  induction keys generalizing lower ts with
  | nil =>
    match ts, h with
    | [t], h => exact row_nil_iff.2 (hPQ t List.mem_cons_self _ _ (row_nil_iff.1 h))
  | cons key keys ih =>
    match ts, h with
    | t :: ts, h =>
      obtain ⟨hP, hfirst, hrest⟩ := row_cons_iff.1 h
      have hfirst' : leastOf (ts.map θ) = some key := by
        cases ts with
        | nil => exact hfirst
        | cons u us => rwa [List.map_cons, leastOf_cons, hleast, ← leastOf_cons u us]
      exact row_cons_iff.2 ⟨hPQ t List.mem_cons_self _ _ hP, hfirst',
        ih hrest fun u hu => hPQ u (List.mem_cons_of_mem _ hu)⟩

/-- **What every subtree satisfies instead** may stand in the row instead. -/
theorem Row.mono {keys : List Int32} {ts : List Tree} (h : Row P lower upper keys ts)
    (hPQ : ∀ t ∈ ts, ∀ lower upper, P lower upper t → Q lower upper t) :
    Row Q lower upper keys ts := by
  simpa using h.map (θ := id) (fun _ => rfl) hPQ

/-- What holds of every subtree whatever the bounds. -/
theorem Row.forall {p : Tree → Prop} {keys : List Int32} {ts : List Tree}
    (h : Row (fun _ _ t => p t) lower upper keys ts) : ∀ t ∈ ts, p t := by
  induction keys generalizing lower ts with
  | nil =>
    match ts, h with
    | [t], h => simpa using h
  | cons key keys ih =>
    match ts, h with
    | t :: ts, h =>
      obtain ⟨ht, -, hrest⟩ := row_cons_iff.1 h
      exact List.forall_mem_cons.2 ⟨ht, ih hrest⟩

/-- **A row is cut at a separator**: the separator bounds both parts, and the second starts with
it. -/
theorem row_append_iff {front back : List Int32} {key : Int32} {ts us : List Tree}
    (hlen : ts.length = front.length + 1) :
    Row P lower upper (front ++ key :: back) (ts ++ us) ↔
      Row P lower (some key) front ts ∧ leastOf us = some key ∧
        Row P (some key) upper back us := by
  induction front generalizing lower ts with
  | nil =>
    match ts, hlen with
    | [t], _ => simp
  | cons k front ih =>
    match ts, hlen with
    | t :: ts, hlen =>
      have hne : ts ≠ [] := by
        rintro rfl
        simp at hlen
      rw [List.cons_append, List.cons_append, row_cons_iff, row_cons_iff, leastOf_append hne,
        ih (by simpa using hlen), and_assoc, and_assoc]

/-- **One subtree of a row may be replaced** by a row between the same bounds, as long as it starts
with the same key where there is a separator to its left. -/
theorem Row.focus {front back : List Int32} {ts us : List Tree} {t : Tree}
    (h : Row P lower upper (front ++ back) (ts ++ t :: us)) (hlen : ts.length = front.length) :
    P (gapLower lower front) (gapUpper upper back) t ∧
      (∀ key ∈ front.getLast?, least t = some key) ∧
      ∀ keys vs, Row P (gapLower lower front) (gapUpper upper back) keys vs →
        (∀ key ∈ front.getLast?, leastOf vs = some key) →
        Row P lower upper (front ++ keys ++ back) (ts ++ vs ++ us) := by
  induction front generalizing lower ts with
  | nil =>
    obtain rfl : ts = [] := List.eq_nil_of_length_eq_zero hlen
    cases back with
    | nil =>
      obtain rfl : us = [] := by simpa using h.length_eq
      refine ⟨row_nil_iff.1 h, by simp, fun keys vs hrow _ => ?_⟩
      simpa using hrow
    | cons key back =>
      rw [List.nil_append, List.nil_append, row_cons_iff] at h
      obtain ⟨hP, hleast, hrest⟩ := h
      refine ⟨hP, by simp, fun keys vs hrow _ => ?_⟩
      exact (row_append_iff hrow.length_eq).2 ⟨hrow, hleast, hrest⟩
  | cons k front ih =>
    match ts, hlen with
    | u :: ts, hlen =>
      rw [List.cons_append, List.cons_append, row_cons_iff] at h
      obtain ⟨hP, hleast, hrest⟩ := h
      -- the subtree in question lies behind `u`, where the induction hypothesis finds its gap
      obtain ⟨htop, hfirst, hreplace⟩ := ih hrest (by simpa using hlen)
      rw [gapLower_cons]
      refine ⟨htop, ?_, ?_⟩
      · intro key hkey
        cases front with
        | nil =>
          obtain rfl : ts = [] := by simpa using hlen
          cases hkey
          simpa using hleast
        | cons k' front =>
          exact hfirst key (by rwa [List.getLast?_cons_cons] at hkey)
      · intro keys vs hrow hkey
        -- `u` stays; only what stands right behind its separator may have changed
        simp only [List.cons_append, row_cons_iff]
        refine ⟨hP, ?_, hreplace keys vs hrow ?_⟩
        · cases front with
          | nil =>
            obtain rfl : ts = [] := by simpa using hlen
            rw [List.nil_append, leastOf_append hrow.ne_nil]
            exact hkey k rfl
          | cons k' front =>
            have hne : ts ≠ [] := by
              rintro rfl
              simp at hlen
            rw [leastOf_append hne] at hleast
            rwa [List.append_assoc, leastOf_append hne]
        · intro key hmem
          cases front with
          | nil => cases hmem
          | cons k' front => exact hkey key (by rwa [List.getLast?_cons_cons])

/-- The keys found along a row ascend between the outer bounds, if those of each subtree do between
the separators around it. -/
theorem Row.keysFit_flatMap (keysOf : Tree → List Int32) {keys : List Int32} {ts : List Tree}
    (h : Row P lower upper keys ts) (hkeys : KeysFit lower upper keys)
    (hP : ∀ t ∈ ts, ∀ lower upper, P lower upper t → KeysFit lower upper (keysOf t)) :
    KeysFit lower upper (ts.flatMap keysOf) := by
  induction keys generalizing lower ts with
  | nil =>
    match ts, h with
    | [t], h => simpa using hP t List.mem_cons_self _ _ (row_nil_iff.1 h)
  | cons key keys ih =>
    match ts, h with
    | t :: ts, h =>
      obtain ⟨ht, -, hrest⟩ := row_cons_iff.1 h
      rw [List.flatMap_cons]
      refine KeysFit.append (hP t List.mem_cons_self _ _ ht) hkeys.head ?_
      exact ih hrest hkeys.tail fun u hu => hP u (List.mem_cons_of_mem _ hu)

/-- What lies between the separators around its subtree lies between the outer bounds. -/
theorem Row.within (keysOf : Tree → List Int32) {keys : List Int32} {ts : List Tree}
    (h : Row (fun lower upper t => ∀ k ∈ keysOf t, Within lower upper k) lower upper keys ts)
    (hkeys : KeysFit lower upper keys) : ∀ t ∈ ts, ∀ k ∈ keysOf t, Within lower upper k := by
  induction keys generalizing lower ts with
  | nil =>
    match ts, h with
    | [t], h => simpa using row_nil_iff.1 h
  | cons key keys ih =>
    match ts, h with
    | t :: ts, h =>
      obtain ⟨ht, -, hrest⟩ := row_cons_iff.1 h
      have hkey := hkeys.head
      intro u hu k hk
      rcases List.mem_cons.1 hu with rfl | hu
      · refine ⟨(ht k hk).lower, fun bound hb => ?_⟩
        exact Int32.le_trans ((ht k hk).upper key rfl) (hkey.upper bound hb)
      · have hk' := ih hrest hkeys.tail u hu k hk
        refine ⟨fun bound hb => ?_, hk'.upper⟩
        exact Int32.le_trans (hkey.lower bound hb) (hk'.lower key rfl)

/-- **A row, place by place**: each subtree between the separators around it, and each separator the
least key to its right. -/
theorem row_iff_getElem {keys : List Int32} {ts : List Tree} (hlen : ts.length = keys.length + 1) :
    Row P lower upper keys ts ↔
      (∀ (i : Nat) (t : Tree), ts[i]? = some t →
        P (gapLower lower (keys.take i)) (gapUpper upper (keys.drop i)) t) ∧
      (∀ (i : Nat) (key : Int32) (t : Tree), keys[i]? = some key → ts[i + 1]? = some t →
        t.least = some key) := by
  induction keys generalizing lower ts with
  | nil =>
    match ts, hlen with
    | [t], _ =>
      rw [row_nil_iff]
      constructor
      · intro h
        refine ⟨fun i u hu => ?_, fun i key u hkey => absurd hkey (by simp)⟩
        cases i with
        | zero => cases hu; simpa using h
        | succ i => simp at hu
      · rintro ⟨h, -⟩
        simpa using h 0 t rfl
  | cons key keys ih =>
    match ts, hlen with
    | t :: ts, hlen =>
      -- the places of the rest are those of the whole row, moved by one
      rw [row_cons_iff, ih (by simpa using hlen)]
      obtain ⟨next, rest, rfl⟩ : ∃ next rest, ts = next :: rest :=
        List.exists_cons_of_length_eq_add_one (by simpa using hlen)
      constructor
      · rintro ⟨ht, hleast, hplaces, hseparators⟩
        refine ⟨fun i u hu => ?_, fun i k u hk hu => ?_⟩
        · cases i with
          | zero => cases hu; simpa using ht
          | succ i =>
            rw [List.take_succ_cons, List.drop_succ_cons, gapLower_cons]
            exact hplaces i u (by simpa using hu)
        · cases i with
          | zero =>
            cases hk
            rw [List.getElem?_cons_succ, List.getElem?_cons_zero] at hu
            cases hu
            simpa using hleast
          | succ i => exact hseparators i k u (by simpa using hk) (by simpa using hu)
      · rintro ⟨hplaces, hseparators⟩
        refine ⟨by simpa using hplaces 0 t rfl, ?_, fun i u hu => ?_, fun i k u hk hu => ?_⟩
        · simpa using hseparators 0 key next rfl rfl
        · have hplace := hplaces (i + 1) u (by simpa using hu)
          rwa [List.take_succ_cons, List.drop_succ_cons, gapLower_cons] at hplace
        · exact hseparators (i + 1) k u (by simpa using hk) (by simpa using hu)

end Row

/-! ## (4) Ordered trees -/

/-- **A tree whose leaves all lie at one height** below the top. -/
def Balanced : Nat → Tree → Prop
  | 0, .leaf .. => True
  | height + 1, .branch _ _ children => ∀ c ∈ children, Balanced height c
  | _, _ => False

/-- **A tree of some height that keeps all rules**: the keys of every node ascend between the bounds
set above it, every branch has keys, and every separator is the first key to its right. -/
def Ordered : Nat → Option Int32 → Option Int32 → Tree → Prop
  | 0, lower, upper, .leaf _ entries _ => KeysFit lower upper (entries.map (·.1))
  | height + 1, lower, upper, .branch _ keys children =>
    keys ≠ [] ∧ KeysFit lower upper keys ∧ Row (Ordered height) lower upper keys children
  | _, _, _, _ => False

section Ordered

variable {height : Nat} {lower upper : Option Int32}

@[simp] theorem ordered_leaf_iff {id : PageId} {es : List (Int32 × RowId)} {next : PageId} :
    Ordered 0 lower upper (.leaf id es next) ↔ KeysFit lower upper (es.map (·.1)) := by
  rw [Ordered]

@[simp] theorem ordered_branch_iff {id : PageId} {keys : List Int32} {children : List Tree} :
    Ordered (height + 1) lower upper (.branch id keys children) ↔
      keys ≠ [] ∧ KeysFit lower upper keys ∧ Row (Ordered height) lower upper keys children := by
  rw [Ordered]

/-- The leaves of an ordered tree all lie at one height. -/
theorem Ordered.balanced {t : Tree} (h : Ordered height lower upper t) : Balanced height t := by
  induction height generalizing lower upper t with
  | zero =>
    match t, h with
    | .leaf .., _ => trivial
  | succ height ih =>
    match t, h with
    | .branch _ keys children, h =>
      exact Row.forall ((ordered_branch_iff.1 h).2.2.mono fun t _ lower upper ht => ih ht)

/-- The keys of the node at the top ascend between the bounds. -/
theorem Ordered.keysFit {t : Tree} (h : Ordered height lower upper t) :
    KeysFit lower upper t.keys := by
  cases height with
  | zero =>
    match t, h with
    | .leaf .., h => exact h
  | succ height =>
    match t, h with
    | .branch .., h => exact (ordered_branch_iff.1 h).2.1

/-- **The entries of an ordered tree ascend** from leaf to leaf, between the bounds. -/
theorem Ordered.keysFit_entries {t : Tree} (h : Ordered height lower upper t) :
    KeysFit lower upper (t.entries.map (·.1)) := by
  induction height generalizing lower upper t with
  | zero =>
    match t, h with
    | .leaf .., h => simpa using h
  | succ height ih =>
    match t, h with
    | .branch _ keys children, h =>
      obtain ⟨-, hkeys, hrow⟩ := ordered_branch_iff.1 h
      rw [entries_branch, List.map_flatMap]
      exact hrow.keysFit_flatMap (fun t => t.entries.map (·.1)) hkeys fun t _ lower upper ht => ih ht

/-- All keys of all nodes of an ordered tree lie between the bounds. -/
theorem Ordered.within {t : Tree} (h : Ordered height lower upper t) :
    ∀ s ∈ t.subtrees, ∀ key ∈ s.keys, Within lower upper key := by
  induction height generalizing lower upper t with
  | zero =>
    match t, h with
    | .leaf .., h =>
      intro s hs
      rw [subtrees_leaf, List.mem_singleton] at hs
      rw [hs]
      exact h.keysFit.within
  | succ height ih =>
    match t, h with
    | .branch _ keys children, h =>
      obtain ⟨-, hkeys, hrow⟩ := ordered_branch_iff.1 h
      have hbelow := Row.within (fun t => t.subtrees.flatMap Tree.keys)
        (hrow.mono fun t _ lower upper ht k hk => by
          obtain ⟨s, hs, hks⟩ := List.mem_flatMap.1 hk
          exact ih ht s hs k hks) hkeys
      intro s hs key hkey
      rw [subtrees_branch, List.mem_cons] at hs
      rcases hs with rfl | hs
      · exact hkeys.within key hkey
      · obtain ⟨c, hc, hsc⟩ := List.mem_flatMap.1 hs
        exact hbelow c hc key (List.mem_flatMap.2 ⟨s, hsc, hkey⟩)

/-- **The entries on both sides of a subtree**: no key to the left is above all separators there, and
no key to the right is below all separators there. -/
theorem Row.sides {front back : List Int32} {ts us : List Tree} {c : Tree}
    (h : Row (Ordered height) lower upper (front ++ back) (ts ++ c :: us))
    (hlen : ts.length = front.length) :
    (∀ t ∈ ts, ∀ e ∈ t.entries, ∃ k ∈ front, e.1 ≤ k) ∧
      ∀ u ∈ us, ∀ e ∈ u.entries, ∃ k ∈ back, k ≤ e.1 := by
  have hplaces := ((row_iff_getElem h.length_eq).1 h).1
  have hlength := h.length_eq
  rw [List.length_append, List.length_append, List.length_cons] at hlength
  constructor
  · intro t ht e he
    obtain ⟨i, hi⟩ := List.mem_iff_getElem?.1 ht
    have hlt := (List.getElem?_eq_some_iff.1 hi).1
    -- the separator to the right of the subtree
    have hkey : (front ++ back)[i]? = some front[i] := by
      rw [List.getElem?_append_left (by omega), List.getElem?_eq_getElem]
    have hplace := hplaces i t (by rw [List.getElem?_append_left hlt, hi])
    rw [gapUpper_drop hkey] at hplace
    exact ⟨front[i], List.getElem_mem _,
      (hplace.keysFit_entries.within e.1 (List.mem_map.2 ⟨e, he, rfl⟩)).upper _ rfl⟩
  · intro u hu e he
    obtain ⟨i, hi⟩ := List.mem_iff_getElem?.1 hu
    have hlt := (List.getElem?_eq_some_iff.1 hi).1
    -- the separator to the left of the subtree
    have hkey : (front ++ back)[front.length + i]? = some back[i] := by
      rw [List.getElem?_append_right (by omega), Nat.add_sub_cancel_left, List.getElem?_eq_getElem]
    have hplace := hplaces (front.length + i + 1) u (by
      rw [List.getElem?_append_right (by omega), ← hlen, Nat.add_assoc, Nat.add_sub_cancel_left,
        List.getElem?_cons_succ, hi])
    rw [gapLower_take hkey] at hplace
    exact ⟨back[i], List.getElem_mem _,
      (hplace.keysFit_entries.within e.1 (List.mem_map.2 ⟨e, he, rfl⟩)).lower _ rfl⟩

/-- An ordered tree has one level more than its height. -/
theorem Ordered.leftDepth {t : Tree} (h : Ordered height lower upper t) :
    t.leftDepth = height + 1 := by
  induction height generalizing lower upper t with
  | zero =>
    match t, h with
    | .leaf .., _ => rw [leftDepth_leaf]
  | succ height ih =>
    match t, h with
    | .branch _ keys children, h =>
      have hrow := (ordered_branch_iff.1 h).2.2
      obtain ⟨first, rest, rfl⟩ := List.exists_cons_of_ne_nil hrow.ne_nil
      rw [leftDepth_branch]
      have hdepth : ∀ t ∈ first :: rest, t.leftDepth = height + 1 :=
        Row.forall (hrow.mono fun t _ lower upper ht => ih ht)
      rw [hdepth first List.mem_cons_self]

/-- An ordered tree has more nodes than its height. -/
theorem Ordered.height_lt {t : Tree} (h : Ordered height lower upper t) :
    height < t.subtrees.length := by
  induction height generalizing lower upper t with
  | zero => exact List.length_pos_of_mem (self_mem_subtrees t)
  | succ height ih =>
    match t, h with
    | .branch id keys children, h =>
      have hrow := (ordered_branch_iff.1 h).2.2
      obtain ⟨first, rest, rfl⟩ := List.exists_cons_of_ne_nil hrow.ne_nil
      have hall : ∀ t ∈ first :: rest, height < t.subtrees.length :=
        Row.forall (hrow.mono fun t _ lower upper ht => ih ht)
      have hfirst := hall first List.mem_cons_self
      have hlt := length_subtrees_lt (List.mem_cons_self (a := first) (l := rest)) id keys
      omega

/-- Below an ordered tree hang ordered trees. -/
theorem Ordered.of_mem_subtrees {s t : Tree} (h : Ordered height lower upper t)
    (hs : s ∈ t.subtrees) : ∃ height lower upper, Ordered height lower upper s := by
  induction t generalizing height lower upper with
  | leaf id es next =>
    rw [subtrees_leaf, List.mem_singleton] at hs
    rw [hs]
    exact ⟨height, lower, upper, h⟩
  | branch id keys children ih =>
    rw [subtrees_branch, List.mem_cons] at hs
    rcases hs with rfl | hs
    · exact ⟨height, lower, upper, h⟩
    · obtain ⟨c, hc, hsc⟩ := List.mem_flatMap.1 hs
      cases height with
      | zero => exact absurd h (by simp [Ordered])
      | succ height =>
        have hrow := (ordered_branch_iff.1 h).2.2
        have hall : ∀ c ∈ children, ∃ lower upper, Ordered height lower upper c :=
          Row.forall (hrow.mono fun c _ lower upper hc => ⟨lower, upper, hc⟩)
        obtain ⟨lower, upper, hordered⟩ := hall c hc
        exact ih c hc hordered hsc

end Ordered

end Tree

/-! ## (5) What an audit finds at the nodes -/

theorem ascending_iff (keys : List Int32) : ascending keys = true ↔ keys.Pairwise (· ≤ ·) := by
  induction keys with
  | nil => simp [ascending]
  | cons a keys ih =>
    cases keys with
    | nil => simp [ascending]
    | cons b rest =>
      rw [ascending, Bool.and_eq_true, decide_eq_true_iff, ih]
      constructor
      · rintro ⟨hab, hrest⟩
        refine List.pairwise_cons.2 ⟨fun k hk => ?_, hrest⟩
        rcases List.mem_cons.1 hk with rfl | hk
        · exact hab
        · exact Int32.le_trans hab ((List.pairwise_cons.1 hrest).1 k hk)
      · intro h
        obtain ⟨hall, hrest⟩ := List.pairwise_cons.1 h
        exact ⟨hall b List.mem_cons_self, hrest⟩

/-- **The first and the last key speak for all keys** of a node, since these ascend. -/
theorem keyViolations_eq_nil_iff {id : PageId} {keys : List Int32} {lower upper : Option Int32} :
    keyViolations id keys lower upper = [] ↔ KeysFit lower upper keys := by
  -- an audit compares the ends of the row with the bounds, and no key between them
  have hparts : keyViolations id keys lower upper = [] ↔ keys.Pairwise (· ≤ ·) ∧
      (∀ bound ∈ lower, ∀ first ∈ keys.head?, bound ≤ first) ∧
      (∀ bound ∈ upper, ∀ last ∈ keys.getLast?, last ≤ bound) := by
    unfold keyViolations
    rw [List.append_eq_nil_iff, List.append_eq_nil_iff, ← ascending_iff, and_assoc]
    refine and_congr ?_ (and_congr ?_ ?_)
    · split <;> simp [*]
    · cases lower <;> cases keys.head? <;> simp
    · cases upper <;> cases keys.getLast? <;> simp
  rw [hparts]
  constructor
  · rintro ⟨hsorted, hfirst, hlast⟩
    refine ⟨hsorted, fun k hk => ⟨fun bound hb => ?_, fun bound hb => ?_⟩⟩
    · obtain ⟨first, rest, rfl⟩ := List.exists_cons_of_ne_nil (List.ne_nil_of_mem hk)
      have hle := hfirst bound hb first rfl
      rcases List.mem_cons.1 hk with rfl | hk
      · exact hle
      · exact Int32.le_trans hle ((List.pairwise_cons.1 hsorted).1 k hk)
    · -- no key is above the last one
      obtain ⟨init, last, rfl⟩ : ∃ init last, keys = init ++ [last] :=
        ⟨_, _, (List.dropLast_concat_getLast (List.ne_nil_of_mem hk)).symm⟩
      have hle := hlast bound hb last (by simp)
      rcases List.mem_append.1 hk with hk | hk
      · exact Int32.le_trans ((List.pairwise_append.1 hsorted).2.2 k hk last (by simp)) hle
      · rw [List.mem_singleton.1 hk]
        exact hle
  · intro h
    refine ⟨h.sorted, fun bound hb first hfirst => ?_, fun bound hb last hlast => ?_⟩
    · exact (h.within first (List.mem_of_head? hfirst)).lower bound hb
    · exact (h.within last (List.mem_of_getLast? hlast)).upper bound hb

theorem separatorViolations_eq_nil_iff {id : PageId} {separator least : Option Int32} :
    separatorViolations id separator least = [] ↔ ∀ key ∈ separator, least = some key := by
  cases separator <;> simp [separatorViolations]

namespace Tree

@[simp] theorem violations_leaf {expected depth : Nat} {lower upper : Option Int32} {id : PageId}
    {es : List (Int32 × RowId)} {next : PageId} :
    violations expected depth lower upper (.leaf id es next) = [] ↔
      KeysFit lower upper (es.map (·.1)) ∧ depth = expected := by
  rw [violations, List.append_eq_nil_iff, keyViolations_eq_nil_iff]
  split <;> simp [*]

/-- **A row of subtrees without violations**, given the separator to the left of the first. -/
theorem violationsOf_eq_nil_iff {id : PageId} {expected depth : Nat}
    {lower upper separator : Option Int32} {keys : List Int32} {ts : List Tree}
    (hlen : ts.length = keys.length + 1) :
    violationsOf id expected depth lower upper separator keys ts = [] ↔
      (∀ key ∈ separator, leastOf ts = some key) ∧
        Row (fun lower upper t => violations expected depth lower upper t = [])
          (separator.or lower) upper keys ts := by
  induction keys generalizing separator ts with
  | nil =>
    match ts, hlen with
    | [t], _ =>
      simp only [violationsOf, List.append_nil, List.append_eq_nil_iff, List.head?_nil,
        Option.none_or, separatorViolations_eq_nil_iff, leastOf_cons, row_nil_iff]
      exact and_comm
  | cons key keys ih =>
    match ts, hlen with
    | t :: ts, hlen =>
      rw [violationsOf, List.append_eq_nil_iff, List.append_eq_nil_iff,
        separatorViolations_eq_nil_iff, List.tail_cons, ih (by simpa using hlen), row_cons_iff,
        leastOf_cons]
      simp only [List.head?_cons, Option.some_or, Option.mem_def, Option.some.injEq,
        forall_eq']
      -- the same conditions, only in another order
      constructor
      · rintro ⟨⟨ht, hfirst⟩, hleast, hrest⟩
        exact ⟨hfirst, ht, hleast, hrest⟩
      · rintro ⟨hfirst, ht, hleast, hrest⟩
        exact ⟨⟨ht, hfirst⟩, hleast, hrest⟩

theorem violations_branch {expected depth : Nat} {lower upper : Option Int32} {id : PageId}
    {keys : List Int32} {children : List Tree} (hlen : children.length = keys.length + 1) :
    violations expected depth lower upper (.branch id keys children) = [] ↔
      keys ≠ [] ∧ KeysFit lower upper keys ∧
        Row (fun lower upper t => violations expected (depth + 1) lower upper t = [])
          lower upper keys children := by
  have hkeys : (if keys.isEmpty then [Violation.noKeys id] else []) = [] ↔ keys ≠ [] := by
    cases keys <;> simp
  rw [violations, List.append_eq_nil_iff, List.append_eq_nil_iff, keyViolations_eq_nil_iff, hkeys,
    violationsOf_eq_nil_iff hlen, Option.none_or]
  simp only [Option.mem_def, reduceCtorEq, false_imp_iff, implies_true, true_and]
  rw [and_assoc, and_left_comm]

/-- Leaves without violations lie no higher than the top. -/
theorem le_of_violations {expected depth : Nat} {lower upper : Option Int32} {t : Tree}
    (ht : t.Fits) (h : violations expected depth lower upper t = []) : depth ≤ expected := by
  induction t generalizing depth lower upper with
  | leaf id es next => exact Nat.le_of_eq (violations_leaf.1 h).2
  | branch id keys children ih =>
    have hrow := ((violations_branch ht.length_children).1 h).2.2
    obtain ⟨first, rest, rfl⟩ := List.exists_cons_of_ne_nil hrow.ne_nil
    have hall : ∀ t ∈ first :: rest, depth + 1 ≤ expected :=
      Row.forall (hrow.mono fun t hmem lower upper h => ih t hmem (ht.of_mem_children hmem) h)
    have := hall first List.mem_cons_self
    omega

/-- **An audit finds nothing at the nodes of ordered trees**, and of no others. -/
theorem violations_eq_nil_iff {depth height : Nat} {lower upper : Option Int32} {t : Tree}
    (ht : t.Fits) :
    violations (depth + height) depth lower upper t = [] ↔ Ordered height lower upper t := by
  induction t generalizing depth height lower upper with
  | leaf id es next =>
    rw [violations_leaf]
    cases height with
    | zero => simp
    | succ height =>
      simp only [Ordered, iff_false]
      omega
  | branch id keys children ih =>
    cases height with
    | zero =>
      simp only [Ordered, iff_false]
      intro h
      -- the children lie one level too deep
      have hrow := ((violations_branch ht.length_children).1 h).2.2
      obtain ⟨first, rest, rfl⟩ := List.exists_cons_of_ne_nil hrow.ne_nil
      have hall : ∀ t ∈ first :: rest, depth + 1 ≤ depth + 0 :=
        Row.forall (hrow.mono fun t hmem lower upper h =>
          le_of_violations (ht.of_mem_children hmem) h)
      have := hall first List.mem_cons_self
      omega
    | succ height =>
      -- one level further down there is one level less below
      have hiff : ∀ c ∈ children, ∀ lower upper,
          violations (depth + (height + 1)) (depth + 1) lower upper c = [] ↔
            Ordered height lower upper c := by
        intro c hc lower upper
        have hchild : violations (depth + 1 + height) (depth + 1) lower upper c = [] ↔
            Ordered height lower upper c := ih c hc (ht.of_mem_children hc)
        rwa [Nat.add_right_comm, Nat.add_assoc] at hchild
      rw [violations_branch ht.length_children, ordered_branch_iff]
      refine and_congr_right fun _ => and_congr_right fun _ => ⟨fun h => ?_, fun h => ?_⟩
      · exact h.mono fun c hc lower upper => (hiff c hc lower upper).1
      · exact h.mono fun c hc lower upper => (hiff c hc lower upper).2

/-- Every tree has a level. -/
theorem one_le_leftDepth (t : Tree) : 1 ≤ t.leftDepth := by
  cases t with
  | leaf id es next => exact Nat.le_of_eq (leftDepth_leaf id es next).symm
  | branch id keys children =>
    rw [leftDepth]
    omega

/-- **An audit from the top of a tree down** finds nothing at the nodes of ordered trees, and of no
others. -/
theorem violations_leftDepth_eq_nil_iff {t : Tree} (ht : t.Fits) :
    violations t.leftDepth 1 none none t = [] ↔ ∃ height, Ordered height none none t := by
  constructor
  · intro h
    rw [← Nat.add_sub_cancel' (one_le_leftDepth t)] at h
    exact ⟨t.leftDepth - 1, (violations_eq_nil_iff ht).1 h⟩
  · rintro ⟨height, h⟩
    rw [h.leftDepth, Nat.add_comm]
    exact (violations_eq_nil_iff ht).2 h

end Tree

end RowIndex
