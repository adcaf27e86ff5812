import Mathlib
import Fluent.Proofs.Items
import Fluent.Proofs.Transcription.Resource

/-!
# Recovery after a broken entry

What follows a broken entry is read as it is without it, unless the entry misses an argument of a
call at its very end: then the id of the next entry is taken for that argument, and the next entry
is lost with the broken one.

* `parse_append_entries`: the entries behind a text are read as they are, if none of its failures
  departs;
* `siblings_survive_iff`: which broken entries leave all that follows them intact.
-/

namespace Fluent.Grammar

open Fluent.Grammar.Parser Fluent.Text.Reader Transcription

theorem startsEntry_of_message {text rest : List Char} {read : String × Entry}
    (h : message text = .ok (read, rest)) : StartsEntry text := by
  rw [message_eq, bind_apply] at h
  cases hh : messageHead text with
  | error failure => rw [hh] at h; cases h
  | ok head =>
    obtain ⟨id, after⟩ := head
    rw [messageHead_apply] at hh
    split at hh
    · rename_i id' next hid
      refine ⟨id', next, hid, ?_⟩
      simp only at hh
      split at hh
      · assumption
      · cases hh
    · cases hh

/-- A text that starts like an entry and has no errors starts with an entry. -/
theorem startsEntry_of_parse {source : String} {c : Char} (hc : source.toList.head? = some c)
    (hs : c.isAlpha = true ∨ c = '-') (h : (Resource.parse source).errors = []) :
    StartsEntry source.toList := by
  obtain ⟨text, ht⟩ := List.head?_eq_some_iff.mp hc
  rw [ht]
  have hne : Text.isBlank c = false ∧ c ≠ '#' := by
    simp only [Text.isBlank, Bool.or_eq_false_iff, beq_eq_false_iff_ne]
    refine ⟨⟨⟨⟨?_, ?_⟩, ?_⟩, ?_⟩, ?_⟩ <;> rintro rfl <;> exact absurd hs (by decide)
  have hn : startsComment (c :: text) = false := by
    refine Bool.eq_false_iff.mpr fun hs => ?_
    obtain ⟨d, rest, he, -⟩ := startsComment_cases hs
    exact hne.2 (List.cons.inj he).1
  cases hm : message (c :: text) with
  | ok read => exact startsEntry_of_message hm
  | error failure =>
    rw [Resource.parse_errors, ht, items_cons true hne.1, attempt, entryOrComment_apply, if_pos rfl,
      if_neg (by simp [hn]), bind_error hm] at h
    simp [Item.error?] at h

theorem followedBy_apply {tail : List Char} (h : StartsEntry tail) (text : List Char) :
    (followedBy tail h).apply text = text ++ tail := by
  induction text with
  | nil => rfl
  | cons c text ih =>
    by_cases hc : c = '\n'
    · rw [hc, apply_lineFeed, ih]
      rfl
    · rw [apply_cons hc, ih, List.cons_append]

theorem followedBy_within {tail text : List Char} (h : StartsEntry tail)
    (hend : text.getLast? = some '\n') : (followedBy tail h).Within text where
  noReturn hl := absurd rfl hl
  ended _ := by simp [hend, followedBy]

theorem foldl_addTo_of_same {T : Transcription} (hl : T.lineEnd = ['\n']) {text : List Char}
    {found found' : List Item} (h : List.Forall₂ (T.SameItem text) found found')
    (entries : Table Entry) :
    found'.foldl Item.addTo entries = found.foldl Item.addTo entries := by
  induction h generalizing entries with
  | nil => rfl
  | cons hs _ ih =>
    cases hs with
    | entry => rw [entryOf, if_pos hl, List.foldl_cons, List.foldl_cons, ih]
    | failure => exact ih entries

theorem entry_of_same {T : Transcription} {text : List Char} {found found' : List Item}
    (h : List.Forall₂ (T.SameItem text) found found') {id : String} {entry : Entry}
    (hm : .entry id entry ∈ found') : ∃ entry, .entry id entry ∈ found := by
  induction h with
  | nil => cases hm
  | @cons item item' found found' hs _ ih =>
    obtain rfl | hm := List.mem_cons.mp hm
    · cases hs
      exact ⟨_, List.mem_cons_self⟩
    · obtain ⟨entry, he⟩ := ih hm
      exact ⟨entry, List.mem_cons_of_mem _ he⟩

/-- The entries behind a text are put over its own, if none of its failures misses an argument at
its end. -/
theorem parse_append_entries {text sound : String} (hend : text.toList.getLast? = some '\n')
    (hs : StartsEntry sound.toList)
    (hf : .failure ⟨.expectedLiteral, []⟩ ∉ items true text.toList) :
    (Resource.parse (text ++ sound)).entries =
      (items true sound.toList).foldl Item.addTo (Resource.parse text).entries := by
  have hfaithful : (followedBy sound.toList hs).Faithful true text.toList := by
    refine ⟨fun hl => absurd rfl hl, ?_⟩
    rintro failure hm (⟨-, rfl⟩ | ⟨hl, -⟩)
    · exact hf hm
    · exact hl rfl
  obtain ⟨-, found, hsame, hi⟩ :=
    (items_agree (followedBy_within hs hend) fun _ _ => rfl).resolve_right
    fun h => h.1 hfaithful
  rw [followedBy_apply] at hi
  rw [Resource.parse_entries, String.toList_append, hi, List.foldl_append, Resource.parse_entries]
  rw [foldl_addTo_of_same rfl hsame]
  rfl

/-- The next entry is lost behind a text that misses an argument at its end. -/
theorem parse_append_lost {broken : String} (hend : broken.toList.getLast? = some '\n')
    (hi : items true broken.toList = [.failure ⟨.expectedLiteral, []⟩]) :
    (Resource.parse (broken ++ "b = x\n")).entries = ∅ := by
  have hs : StartsEntry "b = x\n".toList := ⟨"b", [' ', '=', ' ', 'x', '\n'], rfl, rfl⟩
  have hunfaithful : ¬(followedBy _ hs).Faithful true broken.toList := by
    refine fun hf => hf.failures _ (hi ▸ List.mem_singleton_self _) (.inl ⟨hs.ne_nil, rfl⟩)
  obtain ⟨-, same, same', rest, item', rest', hx, hy, hsame, -, ht⟩ :=
    (items_agree (followedBy_within hs hend) fun _ _ => rfl).resolve_left
      fun h => hunfaithful h.1
  obtain ⟨failure, lineStart, start, rfl, hstart, hw, rfl⟩ := ht hs.ne_nil
  rw [followedBy_apply] at hy
  have hnone : resume ((followedBy _ hs).apply start) failure.rest = [] := by
    have hid : entryIdentifier "b = x\n".toList = .ok ("b", [' ', '=', ' ', 'x', '\n']) := rfl
    obtain ⟨id, after, ha, hr⟩ := hw
    obtain ⟨-, rfl⟩ := Prod.mk.inj (Except.ok.inj (hid.symm.trans ha))
    rw [followedBy_apply]
    obtain hr | hr := hr <;> rw [hr]
    · exact resume_midLine (c := 'b') (by decide) start [' ', '=', ' ', 'x', '\n']
    · have := resume_midLine (c := ' ') (by decide) (start ++ ['b']) ['=', ' ', 'x', '\n']
      rwa [List.append_assoc] at this
  rw [Resource.parse_entries, String.toList_append, hy, hnone, items_nil]
  refine foldl_addTo_failures fun id entry hm => ?_
  obtain hm | hm := List.mem_append.mp hm
  · obtain ⟨entry, hm⟩ := entry_of_same hsame hm
    have := List.mem_append_left rest hm
    simp [← hx, hi] at this
  · simp at hm

/-- A text without entries and with one error has one item, the failure that the error is. -/
theorem items_of_error {broken : String} {error : ParseError}
    (hentries : (Resource.parse broken).entries = ∅)
    (herrors : (Resource.parse broken).errors = [error]) :
    ∃ failure, items true broken.toList = [.failure failure] ∧
      failure.locate broken.toList = error := by
  rw [Resource.parse_entries] at hentries
  rw [Resource.parse_errors] at herrors
  have hnone := (foldl_addTo_isEmpty (by rw [hentries]; rfl)).2
  generalize items true broken.toList = found at hnone herrors
  have hfailure (item : Item) (hm : item ∈ found) : ∃ failure, item = .failure failure := by
    cases item with
    | entry id entry => exact absurd hm (hnone id entry)
    | failure failure => exact ⟨failure, rfl⟩
  cases found with
  | nil => cases herrors
  | cons item found =>
    obtain ⟨failure, rfl⟩ := hfailure item List.mem_cons_self
    cases found with
    | nil => exact ⟨failure, rfl, by simpa [Item.error?] using herrors⟩
    | cons item found =>
      obtain ⟨other, rfl⟩ := hfailure item (List.mem_cons_of_mem _ List.mem_cons_self)
      simp [Item.error?] at herrors

/-- A broken entry leaves what follows it intact unless it misses an argument at its very end. -/
theorem siblings_survive_iff {broken : String} {error : ParseError}
    (hend : broken.toList.getLast? = some '\n') (hentries : (Resource.parse broken).entries = ∅)
    (herrors : (Resource.parse broken).errors = [error]) :
    (∀ (sound : String) (c : Char), sound.toList.head? = some c → c.isAlpha = true ∨ c = '-' →
      (Resource.parse sound).errors = [] → ∀ (id : String) (entry : Entry),
        (Resource.parse sound).entries[id]? = some entry →
          (Resource.parse (broken ++ sound)).entries[id]? = some entry) ↔
      ¬(error.fault = .expectedLiteral ∧ error.offset = broken.utf8ByteSize) := by
  obtain ⟨failure, hi, rfl⟩ := items_of_error hentries herrors
  have hs : failure.rest <:+ broken.toList := items_failure_suffix (hi ▸ List.mem_singleton_self _)
  rw [Failure.locate_offset_eq hs]
  constructor
  · rintro h ⟨hf, hr⟩
    obtain rfl : failure = ⟨.expectedLiteral, []⟩ := by
      cases failure
      simp_all [Failure.locate]
    have he : (Resource.parse "b = x\n").entries["b"]? = some (.text "x") := by cbv
    have hx := h "b = x\n" 'b' rfl (by decide) (by cbv) "b" _ he
    rw [parse_append_lost hend hi] at hx
    simp at hx
  · intro h sound c hc hs herr id entry he
    have hsound := startsEntry_of_parse hc hs herr
    rw [parse_append_entries hend hsound, hentries]
    · exact he
    · rw [hi, List.mem_singleton, Item.failure.injEq]
      rintro rfl
      exact h ⟨rfl, rfl⟩

/-- What follows a call that breaks off after its bracket is lost. -/
theorem open_call_loses_sibling :
    ¬∀ (sound : String) (c : Char), sound.toList.head? = some c → c.isAlpha = true ∨ c = '-' →
      (Resource.parse sound).errors = [] → ∀ (id : String) (entry : Entry),
        (Resource.parse sound).entries[id]? = some entry →
          (Resource.parse ("a = \x7b F(\n" ++ sound)).entries[id]? = some entry := by
  have hitems : items true "a = \x7b F(\n".toList = [.failure ⟨.expectedLiteral, []⟩] := by cbv
  have hentries : (Resource.parse "a = \x7b F(\n").entries = ∅ := by
    rw [Resource.parse_entries, hitems]
    rfl
  have herrors : (Resource.parse "a = \x7b F(\n").errors = [⟨.expectedLiteral, 9, 2, 1⟩] := by
    rw [Resource.parse_errors, hitems]
    rfl
  rw [siblings_survive_iff rfl hentries herrors]
  exact fun h => h ⟨rfl, rfl⟩

end Fluent.Grammar
