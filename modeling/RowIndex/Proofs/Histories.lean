import RowIndex.Proofs.StableTrees

/-! # What searches find after a run of calls

An index is a list of entries in the order of their keys. A search finds what was inserted under its
key and not deleted since, in the order of insertion.

* **`Call.remember`**, `remembered` — what was inserted and not deleted since.
* **`isTombstone_ofText`** — which texts are never found.
* **`Tells`** — under every key, the listed entries that are live are the remembered ones.
* **`Call.Changes.tells`**, `Lists.afterAll` — one call keeps this, and so does a run.
* **`insert_refines`** — insertions refine those into a sorted list, and searches find what is
  remembered. -/

namespace RowIndex

/-! ## (1) Texts that show -/

/-- **Whether a text shows**: it is not empty and does not start with NUL. -/
def shows (text : String) : Bool :=
  match text.toList with
  | [] => false
  | c :: _ => c ≠ '\x00'

theorem ofNat_ne_zero {n : Nat} (hpos : 0 < n) (hlt : n < 256) : UInt8.ofNat n ≠ 0 := by
  intro h
  have hnat := congrArg UInt8.toNat h
  rw [UInt8.toNat_ofNat', UInt8.toNat_zero] at hnat
  omega

/-- The first byte of a character is zero only for NUL. -/
theorem exists_utf8EncodeChar_eq_cons {c : Char} (h : c ≠ '\x00') :
    ∃ b bs, String.utf8EncodeChar c = b :: bs ∧ b ≠ 0 := by
  have hpos : 0 < c.val.toNat := by
    refine Nat.pos_of_ne_zero fun hzero => h ?_
    exact Char.ext (UInt32.toNat_inj.1 hzero)
  fun_cases String.utf8EncodeChar c with
  | case1 v hv => exact ⟨_, _, rfl, ofNat_ne_zero hpos (by omega)⟩
  | case2 v => exact ⟨_, _, rfl, ofNat_ne_zero (by omega) (by omega)⟩
  | case3 v => exact ⟨_, _, rfl, ofNat_ne_zero (by omega) (by omega)⟩
  | case4 v => exact ⟨_, _, rfl, ofNat_ne_zero (by omega) (by omega)⟩

theorem byteAt_toUTF8_zero {c : Char} (rest : List Char) {b : UInt8} {bs : List UInt8}
    (h : String.utf8EncodeChar c = b :: bs) :
    Bytes.byteAt (String.ofList (c :: rest)).toUTF8 0 = b := by
  have hbytes : (String.ofList (c :: rest)).toUTF8
      = (b :: (bs ++ rest.flatMap String.utf8EncodeChar)).toByteArray := by
    rw [String.toUTF8_eq_toByteArray, String.toByteArray_ofList, List.utf8Encode, List.flatMap_cons, h,
      List.cons_append]
  rw [hbytes, Bytes.byteAt_of_lt (by rw [List.size_toByteArray]; simp), List.getElem_toByteArray]
  rfl

/-- **The texts that do not show** are stored as the empty slot, and no others are. -/
theorem isTombstone_ofText (text : String) : (RowId.ofText text).isTombstone = !shows text := by
  rw [RowId.isTombstone, RowId.ofText, RowId.bytes_ofBytes, Bytes.byteAt_fit, if_pos (by decide),
    shows]
  cases text.toList with
  | nil => rfl
  | cons c rest =>
    by_cases hc : c = '\x00'
    · rw [RowId.storable_cons, if_pos (Or.inl hc), hc]
      rfl
    · -- the first character is stored, and its first byte is not zero
      have hroom : ¬ Layout.valueSize < c.utf8Size := by
        have := c.utf8Size_le_four
        simp only [Layout.valueSize]
        omega
      obtain ⟨b, bs, hbytes, hb⟩ := exists_utf8EncodeChar_eq_cons hc
      rw [RowId.storable_cons, if_neg (not_or.2 ⟨hc, hroom⟩), byteAt_toUTF8_zero _ hbytes]
      simp [hb, hc]

/-! ## (2) What is remembered -/

/-- **What a call makes of the entries that are remembered**: inserted texts come last, and deletions
forget the texts that are stored in the same slot as one to be deleted. -/
def Call.remember (history : List (Int32 × String)) : Call → List (Int32 × String)
  | .insert key text => history ++ [(key, text)]
  | .deleteValues texts =>
    history.filter fun e => !texts.any fun text => RowId.ofText text = RowId.ofText e.2
  | .save => history
  | .reopen _ _ => history

/-- **What was inserted in a run of calls and not deleted since**, in the order of insertion. -/
def remembered (calls : List Call) : List (Int32 × String) :=
  calls.foldl Call.remember []

/-- **The texts under a key** among those remembered, as they are stored. -/
def textsUnder (key : Int32) (history : List (Int32 × String)) : List String :=
  (history.filter fun e => e.1 == key && shows e.2).map fun e => (RowId.ofText e.2).text

/-- **Under every key, the live entries are the remembered ones.** -/
def Tells (L : List (Int32 × RowId)) (history : List (Int32 × String)) : Prop :=
  ∀ key, L.filter (fun e => e.1 == key && isLive e)
    = (history.filter fun e => e.1 == key && shows e.2).map fun e => (e.1, RowId.ofText e.2)

theorem Tells.nil : Tells [] [] :=
  fun _ => rfl

/-- An entry is live just if its text shows. -/
theorem isLive_ofText (key : Int32) (text : String) :
    isLive (key, RowId.ofText text) = shows text := by
  rw [isLive_mk, isTombstone_ofText, Bool.not_not]

/-- An insertion is remembered. -/
theorem Tells.insert {key : Int32} {text : String} {front back : List (Int32 × RowId)}
    {history : List (Int32 × String)} (h : Tells (front ++ back) history)
    (hback : ∀ e ∈ back, key < e.1) :
    Tells (front ++ (key, RowId.ofText text) :: back) (history ++ [(key, text)]) := by
  intro k
  have hk := h k
  rw [List.filter_append] at hk
  rw [List.filter_append, List.filter_append, List.map_append, ← hk, List.append_assoc]
  refine congrArg (List.filter _ front ++ ·) ?_
  by_cases hkey : key = k
  · -- nothing behind the new entry has its key
    have hnone : back.filter (fun e => e.1 == k && isLive e) = [] := by
      rw [List.filter_eq_nil_iff]
      intro e he hwants
      have hlt := hback e he
      rw [hkey, beq_iff_eq.1 (Bool.and_eq_true_iff.1 hwants).1] at hlt
      exact Int32.not_lt.2 (Int32.le_refl k) hlt
    rw [List.filter_cons, hnone, List.nil_append, List.filter_cons, isLive_ofText]
    split <;> rfl
  · have hother : ((key, RowId.ofText text).1 == k) = false := beq_eq_false_iff_ne.2 hkey
    simp [hother]

/-- Whether the slot of a text that shows is to be cleared. -/
theorem contains_targetsOf {texts : List String} {text : String} (h : shows text) :
    (PageFile.targetsOf texts).contains (RowId.ofText text)
      = texts.any fun target => RowId.ofText target = RowId.ofText text := by
  rw [Bool.eq_iff_iff, List.contains_iff_mem, PageFile.targetsOf, List.mem_filter, List.mem_map,
    List.any_eq_true, isTombstone_ofText, h]
  simp

/-- A cleared entry is live if it was and its slot is kept, and it is the same entry then. -/
theorem isLive_cleared (targets : List RowId) (e : Int32 × RowId) :
    isLive (e.1, e.2.cleared targets) = (isLive e && !targets.contains e.2) := by
  by_cases hcleared : targets.contains e.2
  · rw [RowId.cleared, if_pos hcleared, hcleared, Bool.not_true, Bool.and_false]
    rfl
  · rw [RowId.cleared, if_neg hcleared, (Bool.not_eq_true _).mp hcleared, Bool.not_false,
      Bool.and_true]

/-- The live entries after a deletion are those from before whose slots are kept. -/
theorem filter_map_cleared (targets : List RowId) {L : List (Int32 × RowId)}
    (wanted : Int32 × RowId → Bool) (hwanted : ∀ e, wanted (e.1, e.2.cleared targets) = wanted e) :
    (L.map fun e => (e.1, e.2.cleared targets)).filter (fun e => wanted e && isLive e)
      = (L.filter fun e => wanted e && isLive e).filter fun e => !targets.contains e.2 := by
  rw [List.filter_map, List.filter_filter]
  have hlive : ∀ e ∈ L, (wanted (e.1, e.2.cleared targets) && isLive (e.1, e.2.cleared targets))
      = (!targets.contains e.2 && (wanted e && isLive e)) := by
    intro e _
    rw [hwanted, isLive_cleared, Bool.and_comm (isLive e), Bool.and_left_comm]
  have hsame := List.filter_congr hlive
  simp only [Function.comp_def, hsame]
  refine (List.map_congr_left fun e he => ?_).trans (List.map_id _)
  have hkept := (Bool.and_eq_true_iff.1 (List.mem_filter.1 he).2).1
  rw [Bool.not_eq_true'] at hkept
  exact Prod.ext rfl (if_neg (ne_true_of_eq_false hkept))

/-- A deletion is remembered. -/
theorem Tells.deleteValues {L : List (Int32 × RowId)} {history : List (Int32 × String)}
    (h : Tells L history) (texts : List String) :
    Tells (L.map fun e => (e.1, e.2.cleared (PageFile.targetsOf texts)))
      (history.filter fun e => !texts.any fun text => RowId.ofText text = RowId.ofText e.2) := by
  intro k
  have hkept := filter_map_cleared (PageFile.targetsOf texts) (L := L) (fun e => e.1 == k) fun _ => rfl
  rw [hkept, h k, List.filter_map, List.filter_filter, List.filter_filter]
  refine congrArg (List.map _) (List.filter_congr fun e _ => ?_)
  by_cases hshows : shows e.2
  · simp only [Function.comp_apply, contains_targetsOf hshows]
    exact Bool.and_comm _ _
  · simp [hshows]

/-- **What a call makes of the entries is remembered.** -/
theorem Call.Changes.tells {c : Call} {L L' : List (Int32 × RowId)} {history : List (Int32 × String)}
    (hc : c.Changes L L') (h : Tells L history) : Tells L' (c.remember history) := by
  cases hc with
  | insert _ hback => exact h.insert hback
  | deleteValues => exact h.deleteValues _
  | save => exact h
  | reopen => exact h

namespace PageFile

/-! ## (3) Runs of calls -/

/-- **In a run of calls that all succeed**, the live entries stay the remembered ones. -/
theorem Lists.afterAll {f g : PageFile} {L : List (Int32 × RowId)} {history : List (Int32 × String)}
    {calls : List Call} (h : f.Lists L) (hinUse : f.InUse) (htells : Tells L history)
    (hrun : f.afterAll calls = .ok g) :
    ∃ L', g.Lists L' ∧ Tells L' (calls.foldl Call.remember history) := by
  induction calls generalizing f L history with
  | nil =>
    obtain rfl := Except.ok.inj hrun
    exact ⟨L, h, htells⟩
  | cons c calls ih =>
    obtain ⟨k, hcall, hrest⟩ := afterAll_cons_eq_ok_iff.1 hrun
    obtain ⟨L', hlists, hchanges⟩ := h.call hinUse c
    have hinUse' := hinUse.call c
    rw [hcall] at hlists hchanges hinUse'
    exact ih hlists hinUse' ((hchanges rfl).tells htells) hrest

/-- A search finds what is remembered. -/
theorem Lists.search_eq_textsUnder {f : PageFile} {L : List (Int32 × RowId)}
    {history : List (Int32 × String)} (h : f.Lists L) (htells : Tells L history) (key : Int32) :
    f.search key = .ok (textsUnder key history) := by
  rw [h.search_eq key, htells key, List.map_map, textsUnder]
  rfl

/-- **Insertions refine those into a sorted list.** In a file that an audit accepts, an insertion that
succeeds puts its entry into the chain right behind the last one whose key is not above its own, and
changes nothing else; it fails only when the file has no room for another page. So after any run of
calls on a new index that all succeed, a search finds the texts that were inserted under its key and
not deleted since, in the order of insertion. -/
theorem insert_refines :
    (∀ f s, f.verify = .ok s → ∃ L, f.chain = .ok L ∧ (¬ f.root.isValid → L = []) ∧
      (∀ key text g, (insert key text).runOn f = (.ok (), g) → ∃ front back,
        L = front ++ back ∧ (∀ e ∈ front, e.1 ≤ key) ∧ (∀ e ∈ back, key < e.1) ∧
          g.chain = .ok (front ++ (key, RowId.ofText text) :: back)) ∧
      ∀ key text failure g, f.InUse → (insert key text).runOn f = (.error failure, g) →
        g.NoRoom failure) ∧
    ∀ host path sizing f calls g, create host path sizing = .ok f → f.afterAll calls = .ok g →
      ∀ key, g.search key = .ok (textsUnder key (remembered calls)) := by
  refine ⟨fun f s h => ?_, fun host path sizing f calls g hcreate hrun key => ?_⟩
  · obtain ⟨L, hlists⟩ := exists_lists_iff.2 ⟨s, h⟩
    refine ⟨L, hlists.chain_eq, fun hroot => ?_, fun key text g hrun => ?_,
      fun key text failure g hinUse hrun => ?_⟩
    · have hchain := chain_of_not_isValid hroot
      rw [hlists.chain_eq] at hchain
      exact Except.ok.inj hchain
    · have hinserted := hlists.insertValue key (RowId.ofText text)
      rw [← insert, hrun] at hinserted
      cases hinserted with
      | done hbefore hfront hback hlists' =>
        exact ⟨_, _, hbefore, hfront, hback, hlists'.chain_eq⟩
    · have hinserted := hlists.insertValue key (RowId.ofText text)
      rw [← insert, hrun] at hinserted
      cases hinserted with
      -- the record of a file in use can be trusted, so only a lack of room is left
      | refused hnoroom _ =>
        exact hnoroom ((Metadata.defect?_eq_none_iff f.record).1 hinUse.sound).1
  · obtain ⟨L, hlists, htells⟩ :=
      (lists_create hcreate).afterAll (inUse_create hcreate) Tells.nil hrun
    exact hlists.search_eq_textsUnder htells key

/-- What is remembered of insertions, in the order in which they are made. -/
theorem foldl_remember_inserts (row history : List (Int32 × String)) :
    (row.map fun e => Call.insert e.1 e.2).foldl Call.remember history = history ++ row := by
  induction row generalizing history with
  | nil => exact (List.append_nil history).symm
  | cons e row ih =>
    rw [List.map_cons, List.foldl_cons, ih, Call.remember, List.append_assoc]
    rfl

theorem textsUnder_splittingCalls :
    textsUnder 7 (remembered splittingCalls) = [(RowId.ofText "seven").text] := by
  rw [remembered, splittingCalls, foldl_remember_inserts, List.nil_append, splittingRow, textsUnder,
    List.filter_append, List.filter_replicate, if_neg (by decide)]
  rfl

theorem insert_refines_newFile :
    ∃ k g t front back, (∃ s, k.verify = .ok s) ∧ (insert 7 "seven").runOn k = (.ok (), g) ∧
      k.chain = .ok (front ++ back) ∧ g.chain = .ok (front ++ (7, RowId.ofText "seven") :: back) ∧
      newFile.afterAll splittingCalls = .ok g ∧ g.Carries 1 t ∧
        g.search 7 = .ok [(RowId.ofText "seven").text] := by
  obtain ⟨hcall, hrun⟩ := insert_refines
  obtain ⟨k, g, t, hfirst, hlast, hafter, hg⟩ := exists_afterAll_splittingCalls
  obtain ⟨L, hlists, -⟩ :=
    (lists_create create_newFile).afterAll (inUse_create create_newFile) Tells.nil hfirst
  obtain ⟨s, hverify⟩ := exists_lists_iff.1 ⟨L, hlists⟩
  obtain ⟨L, hchain, -, hinsert, -⟩ := hcall k s hverify
  obtain ⟨front, back, rfl, -, -, hchain'⟩ := hinsert 7 "seven" g hlast
  have hsearch := hrun default "new" .default newFile _ g create_newFile hafter 7
  rw [textsUnder_splittingCalls] at hsearch
  exact ⟨k, g, t, front, back, ⟨s, hverify⟩, hlast, hchain, hchain', hafter, hg, hsearch⟩

end PageFile

end RowIndex
