import RowIndex.Proofs.SharedClients
import RowIndex.Proofs.DecimalTexts

/-! # Keys as they are spelled

A key that comes as a text is the number that the text spells, whichever of its texts it is. An index
looks at the number only, through its own handle and through all that share it.

* **`asShown`** — what a search answers for a text that was inserted; `Lists.search_inserted` says that it
  comes behind what was there.
* **`PageFile.Reachable`** — the files that calls on a new index lead to.
* **`Session.StandsFor`** — a handle of an index, shared or not; `StandsFor.ask` is a question through it.
* **`Session.keys_are_spelled_integers`** — all texts of a number are one key, and all others are none. -/

namespace RowIndex

/-! ## (1) Keys and what is under them -/

/-- **What a search answers for an inserted text**: the part of it that is stored, if there is any. -/
def asShown (text : String) : List String :=
  if (RowId.ofText text).text = "" then [] else [(RowId.ofText text).text]

/-- The entry of an inserted text is shown as the text is. -/
theorem asShown_eq (key : Int32) (text : String) :
    ([(key, RowId.ofText text)].filter fun e => e.1 == key && isLive e).map (fun e => e.2.text)
      = asShown text := by
  have hlive : (RowId.ofText text).text = "" ↔ (RowId.ofText text).isTombstone :=
    (RowId.isStored_ofText text).text_eq_empty_iff
  unfold asShown
  split
  · rename_i hempty
    rw [List.filter_cons_of_neg (by simpa using hlive.1 hempty)]
    rfl
  · rename_i htext
    rw [List.filter_cons_of_pos (by simpa using mt hlive.2 htext)]
    rfl

namespace PageFile

variable {f g : PageFile} {L : List (Int32 × RowId)}

/-- **A search after an insertion** answers what it did before, and behind it the new text. -/
theorem Lists.search_inserted {key : Int32} {text : String} (h : f.Lists L)
    (hrun : (insert key text).runOn f = (.ok (), g)) :
    ∃ found, f.search key = .ok found ∧ g.search key = .ok (found ++ asShown text) := by
  have hinserted := h.insertValue key (RowId.ofText text)
  rw [← insert, hrun] at hinserted
  cases hinserted with
  | @done _ front back hbefore hfront hback hlists =>
    subst hbefore
    -- behind the new entry there are only greater keys
    have hnone : back.filter (fun e => e.1 == key && isLive e) = [] := by
      refine List.filter_eq_nil_iff.2 fun e he hkey => ?_
      have hsame : e.1 = key := by simpa using (Bool.and_eq_true_iff.1 hkey).1
      exact Int32.lt_irrefl (hsame ▸ hback e he)
    refine ⟨_, h.search_eq key, (hlists.search_eq key).trans (congrArg Except.ok ?_)⟩
    rw [List.append_cons, List.filter_append, List.filter_append, List.filter_append, hnone,
      List.append_nil, List.append_nil, List.map_append, asShown_eq]

/-- **A file that calls on a new index lead to.** -/
def Reachable (f : PageFile) : Prop :=
  ∃ host path sizing new calls, create host path sizing = .ok new ∧ f = new.afterCalls calls

namespace Reachable

/-- The file lists some entries. -/
theorem exists_lists (h : f.Reachable) : ∃ L, f.Lists L := by
  obtain ⟨_, _, _, _, calls, hcreate, rfl⟩ := h
  exact (lists_create hcreate).afterCalls (inUse_create hcreate) calls

/-- One more call leads to another such file. -/
theorem call (h : f.Reachable) (c : Call) : (f.call c).2.Reachable := by
  obtain ⟨host, path, sizing, new, calls, hcreate, rfl⟩ := h
  refine ⟨host, path, sizing, new, calls ++ [c], hcreate, ?_⟩
  unfold afterCalls
  rw [List.foldl_append, List.foldl_cons, List.foldl_nil]

end Reachable

end PageFile

/-! ## (2) Handles of an index -/

namespace Session

variable {s t : Session} {handle other : String} {target : Nat} {f g : PageFile}

/-- **A handle of an index stands for an open file**, be it alone or one of those that share it. -/
def StandsFor (s : Session) (handle : String) (target : Nat) (f : PageFile) : Prop :=
  ∃ access name, access ≠ .pages ∧ s.resolve? handle = some (⟨access, target⟩, ⟨f, name⟩)

/-- **What is asked through a handle of an index** goes to the file, whichever kind of handle it is, and
every handle of the file stands for what that leaves. -/
theorem StandsFor.ask (h : s.StandsFor handle target f) (hother : s.StandsFor other target f)
    (request : Request) (outcome : Except Failure Answer × PageFile)
    (hasked : ∀ access, access ≠ .pages →
      request.allows access ∧ request.perform access f = outcome) :
    (s.run (.ask handle request)).1 = outcome.1.mapError Refusal.failed ∧
      (s.run (.ask handle request)).2.StandsFor other target outcome.2 := by
  obtain ⟨access, name, haccess, hresolve⟩ := h
  obtain ⟨hallows, hperform⟩ := hasked access haccess
  rw [run_ask hresolve hallows, hperform]
  obtain ⟨access', name', haccess', hresolve'⟩ := hother
  exact ⟨rfl, access', name, haccess', resolve?_store hresolve' _⟩

/-- A search under a key that is spelled. -/
theorem StandsFor.searchText (h : s.StandsFor handle target f) {key : String} {found : List String}
    (hfound : f.searchText key = .ok found) :
    (s.run (.ask handle (.searchText key))).1 = .ok (.texts found) := by
  refine (h.ask h (.searchText key) (.ok (.texts found), f) fun access haccess => ?_).1
  refine ⟨decide_eq_true haccess, ?_⟩
  rw [Request.perform, answered, hfound]
  rfl

/-- **An insertion under a key that is spelled**, if it is done, is one under the number. -/
theorem StandsFor.insertText {key text : String} {k : Int32} {answer : Answer}
    (h : s.StandsFor handle target f) (hother : s.StandsFor other target f)
    (hkey : keyOf? key = some k) (hrun : s.run (.ask handle (.insertText key text)) = (.ok answer, t)) :
    ∃ g, (PageFile.insert k text).runOn f = (.ok (), g) ∧ t.StandsFor other target g := by
  obtain ⟨hreply, hstands⟩ := h.ask hother (.insertText key text)
    (acted f (PageFile.insert k text) fun _ => .done) fun access haccess => by
      refine ⟨decide_eq_true haccess, ?_⟩
      rw [Request.perform, acted, acted, PageFile.insertText, hkey]
  rw [hrun] at hreply hstands
  rw [acted] at hreply hstands
  rcases hinsert : (PageFile.insert k text).runOn f with ⟨failure | ⟨⟩, g⟩
  · rw [hinsert] at hreply
    cases hreply
  · rw [hinsert] at hstands
    exact ⟨g, rfl, hstands⟩

/-- **What names a key that is not spelled** is answered and changes nothing. -/
theorem StandsFor.passedOver {key : String} (h : s.StandsFor handle target f)
    (hother : s.StandsFor other target f) (hkey : keyOf? key = none) (text : String) :
    ∀ request ∈ [Request.insertText key text, .deleteText key text],
      (s.run (.ask handle request)).1 = .ok .done ∧
        (s.run (.ask handle request)).2.StandsFor other target f := by
  intro request hrequest
  refine h.ask hother request (.ok .done, f) fun access haccess => ?_
  rcases List.mem_pair.1 hrequest with rfl | rfl
  · refine ⟨decide_eq_true haccess, ?_⟩
    rw [Request.perform, acted, PageFile.insertText, hkey]
    rfl
  · refine ⟨decide_eq_true haccess, ?_⟩
    rw [Request.perform, acted, PageFile.deleteText, hkey]
    rfl

/-! ## (3) The keys of an index -/

/-- **The keys of an index are the texts of numbers in the 32-bit range**, each read as its number, and
the decimal text of a number as that number. So it does not matter how a key is spelled: where handles
stand for a file that calls on a new index lead to, an insertion under one text of a number adds its
text, if there is something to show, to what is found under any other text of the number. What names a
text of no such number is answered, finds nothing and changes nothing. -/
theorem keys_are_spelled_integers :
    (∀ raw v, keyOf? raw = some v ↔ Decimal.SpellsInt32 raw v.toInt) ∧
    (∀ v : Int32, keyOf? (Decimal.ofInt32 v) = some v) ∧
    ∀ (s : Session) (handle other : String) (target : Nat) (f : PageFile), f.Reachable →
      s.StandsFor handle target f → s.StandsFor other target f →
      (∀ a i text answer t, Decimal.SpellsInt32 a i →
        s.run (.ask handle (.insertText a text)) = (.ok answer, t) →
        ∃ found g, g.Reachable ∧ t.StandsFor other target g ∧ ∀ b, Decimal.SpellsInt32 b i →
          (s.run (.ask other (.searchText b))).1 = .ok (.texts found) ∧
            (t.run (.ask other (.searchText b))).1 = .ok (.texts (found ++ asShown text))) ∧
      ∀ raw, (∀ i, ¬ Decimal.SpellsInt32 raw i) →
        (∀ text, ∀ request ∈ [Request.insertText raw text, .deleteText raw text],
          (s.run (.ask handle request)).1 = .ok .done ∧
            (s.run (.ask handle request)).2.StandsFor other target f) ∧
        (s.run (.ask other (.searchText raw))).1 = .ok (.texts []) := by
  refine ⟨fun raw v => Decimal.int32?_eq_some_iff, Decimal.int32?_ofInt32,
    fun s handle other target f hreachable hhandle hother => ⟨?_, fun raw hraw => ?_⟩⟩
  · intro a i text answer t ha hrun
    obtain ⟨k, hka, rfl⟩ := ha.exists_int32?
    obtain ⟨g, hinsert, hstands⟩ := hhandle.insertText hother hka hrun
    obtain ⟨L, hlists⟩ := hreachable.exists_lists
    obtain ⟨found, hbefore, hafter⟩ := hlists.search_inserted hinsert
    have hcall := hreachable.call (.insert k text)
    rw [PageFile.call, hinsert] at hcall
    refine ⟨found, g, hcall, hstands, fun b hb => ?_⟩
    have hkb : keyOf? b = some k := Decimal.int32?_eq_some_iff.2 hb
    constructor
    · exact hother.searchText (by rw [PageFile.searchText, hkb]; exact hbefore)
    · exact hstands.searchText (by rw [PageFile.searchText, hkb]; exact hafter)
  · have hnone : keyOf? raw = none := Decimal.int32?_eq_none_iff.2 hraw
    refine ⟨hhandle.passedOver hother hnone, hother.searchText ?_⟩
    rw [PageFile.searchText, hnone]

theorem keys_are_spelled_integers_twoClients :
    Decimal.SpellsInt32 "007" 7 ∧ Decimal.SpellsInt32 "+7" 7 ∧
      (∃ found t, twoClients.run (.ask "a" (.insertText "007" "seven")) = (.ok .done, t) ∧
        (twoClients.run (.ask "b" (.searchText "+7"))).1 = .ok (.texts found) ∧
        (t.run (.ask "b" (.searchText "+7"))).1 = .ok (.texts (found ++ asShown "seven"))) ∧
      (∀ i, ¬ Decimal.SpellsInt32 "forty-two" i) ∧
      (twoClients.run (.ask "a" (.insertText "forty-two" "seven"))).1 = .ok .done ∧
      (twoClients.run (.ask "b" (.searchText "forty-two"))).1 = .ok (.texts []) := by
  have hreachable : PageFile.newFile.Reachable :=
    ⟨default, "new", .default, PageFile.newFile, [], PageFile.create_newFile, rfl⟩
  have ha : twoClients.StandsFor "a" 0 PageFile.newFile := ⟨.shared, some "new", by decide, rfl⟩
  have hb : twoClients.StandsFor "b" 0 PageFile.newFile := ⟨.shared, some "new", by decide, rfl⟩
  obtain ⟨hspells, -, hasked⟩ := keys_are_spelled_integers
  obtain ⟨hinserted, hpassed⟩ := hasked twoClients "a" "b" 0 PageFile.newFile hreachable ha hb
  have hseven : Decimal.SpellsInt32 "007" 7 := (hspells "007" 7).1 rfl
  have hplus : Decimal.SpellsInt32 "+7" 7 := (hspells "+7" 7).1 rfl
  have hrun : twoClients.run (.ask "a" (.insertText "007" "seven"))
      = (.ok .done, (twoClients.run (.ask "a" (.insertText "007" "seven"))).2) := rfl
  obtain ⟨found, -, -, -, hsearched⟩ := hinserted "007" 7 "seven" .done _ hseven hrun
  obtain ⟨hbefore, hafter⟩ := hsearched "+7" hplus
  have hnone : ∀ i, ¬ Decimal.SpellsInt32 "forty-two" i := Decimal.int32?_eq_none_iff.1 rfl
  obtain ⟨hunchanged, hnothing⟩ := hpassed "forty-two" hnone
  exact ⟨hseven, hplus, ⟨found, _, hrun, hbefore, hafter⟩, hnone,
    (hunchanged "seven" _ List.mem_cons_self).1, hnothing⟩

end Session

end RowIndex
