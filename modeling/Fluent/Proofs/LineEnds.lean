import Mathlib
import Fluent.Proofs.Items
import Fluent.Proofs.Transcription.Resource

/-!
# Line ends with a carriage return

A source is read alike with carriage returns in front of its line feeds but for three things: a
value that is missing in front of a line end, which is empty then; a comment that is a number sign
alone, which is none then; and a message without a value, which has an empty one then.

* `not_departs_of_apply`: with carriage returns, a value is missing only at the very end;
* `parse_withReturns`: which sources are read alike.
-/

namespace Fluent.Grammar

open Fluent.Grammar.Parser Fluent.Text.Reader Transcription

/-- The source with a carriage return in front of each line feed. -/
def withReturns (source : String) : String :=
  String.ofList (source.toList.flatMap fun c => if c = '\n' then ['\r', '\n'] else [c])

/-- The transcription that adds carriage returns to a text. -/
def Transcription.ofReturns (text : List Char) : Transcription :=
  .crlf (decide (text.getLast? = some '\n'))

theorem withReturns_toList (source : String) :
    (withReturns source).toList = (ofReturns source.toList).apply source.toList := by
  rw [withReturns, String.toList_ofList, apply]
  exact (List.append_nil _).symm

theorem ofReturns_within {text : List Char} (h : '\r' ∉ text) : (ofReturns text).Within text where
  noReturn _ := h
  ended _ := by simp [ofReturns, crlf]

section

variable {T : Transcription} {text rest : List Char} {lineStart : Bool}

/-- An end of a transcription is one of an end of the text, unless it parts a line end. -/
theorem suffix_of_apply (ht : T.tail = []) (hs : rest <:+ T.apply text)
    (hn : rest.head? ≠ some '\n') : ∃ after, after <:+ text ∧ rest = T.apply after := by
  induction text with
  | nil =>
    rw [apply_nil, ht] at hs
    exact ⟨[], List.suffix_refl _, by rw [apply_nil, ht, List.suffix_nil.mp hs]⟩
  | cons c text ih =>
    have later (hs : rest <:+ T.apply text) :
        ∃ after, after <:+ c :: text ∧ rest = T.apply after := by
      obtain ⟨after, ha, he⟩ := ih hs
      exact ⟨after, ha.trans (List.suffix_cons c text), he⟩
    have whole (he : rest = T.apply (c :: text)) :
        ∃ after, after <:+ c :: text ∧ rest = T.apply after := ⟨_, List.suffix_refl _, he⟩
    by_cases hc : c = '\n'
    · subst hc
      obtain he | ⟨-, he⟩ := T.apply_lineFeed_cases text <;> rw [he] at hs whole
      · exact (List.suffix_cons_iff.mp hs).elim whole later
      · obtain hs | hs := List.suffix_cons_iff.mp hs
        · exact whole hs
        · obtain rfl | hs := List.suffix_cons_iff.mp hs
          · exact absurd rfl hn
          · exact later hs
    · rw [apply_cons hc] at hs whole
      exact (List.suffix_cons_iff.mp hs).elim whole later

theorem nextEntry_head (lineStart : Bool) (text : List Char) :
    (nextEntry lineStart text).head? ≠ some '\n' := by
  induction text generalizing lineStart with
  | nil => simp [nextEntry]
  | cons c text ih =>
    rw [nextEntry]
    split
    · rintro ⟨⟩
      simp at *
    · exact ih _

/-- What the attempts at a transcription leave are transcriptions too. -/
theorem attempt_apply_rest (lineStart : Bool) {c : Char} (h : T.Within (c :: text)) (hc : c ≠ '\n')
    (hl : T.lineEnd ≠ ['\n']) :
    (∃ after, after <:+ c :: text ∧ (attempt lineStart (T.apply (c :: text))).2 = T.apply after) ∧
      ∀ failure, .failure failure ∈ (attempt lineStart (T.apply (c :: text))).1 →
        ¬T.Departs failure := by
  have ht := (T.lineEnd_cases.resolve_left hl).2
  have hi := h.inside (by simp)
  have failed (failure : Failure) (hs : failure.rest <:+ T.apply (c :: text))
      (hx : entryOrComment lineStart (T.apply (c :: text)) = .error failure)
      (hd : ¬T.Departs failure) : (∃ after, after <:+ c :: text ∧
        (attempt lineStart (T.apply (c :: text))).2 = T.apply after) ∧
      ∀ failure, .failure failure ∈ (attempt lineStart (T.apply (c :: text))).1 →
        ¬T.Departs failure := by
    rw [attempt, hx]
    refine ⟨suffix_of_apply ht ?_ (nextEntry_head _ _), by simpa using hd⟩
    rw [apply_cons hc] at hs ⊢
    exact (resume_suffix hs).trans (List.suffix_cons _ _)
  cases lineStart with
  | false =>
    refine failed ⟨.expectedEntryStart, T.apply (c :: text)⟩ (List.suffix_refl _) rfl ?_
    rintro (⟨ht', -⟩ | ⟨-, hm, -⟩)
    · exact ht' ht
    · cases hm
  | true =>
    by_cases hs : startsComment (T.apply (c :: text))
    · rw [attempt, entryOrComment_apply, if_pos rfl, if_pos hs]
      exact ⟨⟨_, dropComment_suffix _, dropComment_apply hi⟩, by simp⟩
    · have hx := entryOrComment_apply true (T.apply (c :: text))
      rw [if_pos rfl, if_neg hs, bind_apply] at hx
      have hm : T.Alone (c :: text) T.ReadsEntry (message (T.apply (c :: text))) :=
        (message_agree hi).elim (·.alone hl) (·.alone)
      have hsuffix := message_suffix (T.apply (c :: text))
      cases hy : message (T.apply (c :: text)) with
      | ok read =>
        obtain ⟨read, rest'⟩ := read
        rw [hy] at hx hm
        obtain ⟨-, after, ha, -, rfl⟩ := hm
        rw [attempt, hx]
        exact ⟨⟨after, ha, rfl⟩, by simp⟩
      | error failure =>
        rw [hy] at hx hm hsuffix
        exact failed failure hsuffix hx (hm.2 hl)

/-- With carriage returns, no failure is one that departs. -/
theorem not_departs_of_apply (h : T.Within text) (hl : T.lineEnd ≠ ['\n']) {failure : Failure}
    (hm : .failure failure ∈ items lineStart (T.apply text)) : ¬T.Departs failure := by
  have ht := (T.lineEnd_cases.resolve_left hl).2
  generalize he : T.apply text = text' at hm
  induction lineStart, text' using attempts_induction generalizing text with
  | blank lineStart text' ih =>
    subst he
    rw [items_dropWhile] at hm
    obtain ⟨hd, hw⟩ := h.dropWhile_isBlank
    exact ih hw hd.symm hm
  | ended => simp at hm
  | attempted lineStart c text' hc ih =>
    cases text with
    | nil => simp [ht] at he
    | cons d text =>
      by_cases hd : d = '\n'
      · subst hd
        rw [apply_lineFeed, (T.lineEnd_cases.resolve_left hl).1] at he
        obtain ⟨rfl, -⟩ := List.cons.inj he
        cases hc
      · obtain ⟨⟨after, ha, hr⟩, hf⟩ := attempt_apply_rest lineStart h hd hl
        rw [items_cons lineStart hc, ← he, List.mem_append] at hm
        obtain hm | hm := hm
        · exact hf failure hm
        · exact ih (h.suffix ha) (by rw [← he, hr]) (he ▸ hm)

end

/-- Where readings part, their items do not correspond to the end. -/
theorem Transcription.ReadApart.not_same {T : Transcription} {lineStart : Bool} {text : List Char}
    (h : T.ReadApart lineStart text) (hl : T.lineEnd ≠ ['\n']) :
    ¬List.Forall₂ (T.SameItem text) (items lineStart text) (items lineStart (T.apply text)) := by
  obtain ⟨same, same', rest, item', rest', hx, hy, hs, hn, -⟩ := h
  intro h
  have h := List.forall₂_drop same.length h
  rw [hx, hy, List.drop_left, hs.length_eq, List.drop_left] at h
  cases h with
  | cons h => exact hn hl _ _ (List.head?_cons ..) h

theorem foldl_addTo_filled {T : Transcription} (hl : T.lineEnd ≠ ['\n']) {text : List Char}
    {found found' : List Item} (h : List.Forall₂ (T.SameItem text) found found')
    {entries entries' : Table Entry}
    (he : ∀ id : String, entries'[id]? = entries[id]?.map Entry.filled) (id : String) :
    (found'.foldl Item.addTo entries')[id]? =
      (found.foldl Item.addTo entries)[id]?.map Entry.filled := by
  induction h generalizing entries entries' with
  | nil => exact he id
  | cons hs _ ih =>
    cases hs with
    | @entry name entry =>
      refine ih fun id => ?_
      rw [entryOf, if_neg hl, Item.addTo, Item.addTo, Std.ExtTreeMap.getElem?_insert,
        Std.ExtTreeMap.getElem?_insert, he]
      split <;> rfl
    | failure => exact ih he

theorem kinds_of_same {T : Transcription} {text source source' : List Char}
    {found found' : List Item} (h : List.Forall₂ (T.SameItem text) found found') :
    (found'.filterMap (Item.error? source')).map (·.fault.kind) =
      (found.filterMap (Item.error? source)).map (·.fault.kind) := by
  induction h with
  | nil => rfl
  | cons hs _ ih =>
    cases hs with
    | entry => exact ih
    | failure ha => simpa [Item.error?, Failure.locate, ha.kind] using ih

/-- No comment of a source is a number sign alone in front of a line end. -/
def CommentsSpaced (source : String) : Prop :=
  ∀ start ∈ starts true source.toList, ∀ rest, start ≠ '#' :: '\n' :: rest

/-- No error of a source is that a value is missing. -/
def NoneMissing (source : String) : Prop :=
  ∀ error ∈ (Resource.parse source).errors, error.fault.isMissingValue = false

/-- Each entry of a source has a value. -/
def Valued (source : String) : Prop :=
  ∀ (id : String) attributes, (Resource.parse source).entries[id]? ≠ some (.node none attributes)

/-- A source whose line ends are read alike with and without carriage returns: none of its comments
is a number sign alone, and a value is missing at most at the end of its last line, which has no
line end then. -/
structure LineEndsAlike (source : String) : Prop where
  comments : CommentsSpaced source
  values : ∀ error ∈ (Resource.parse source).errors, error.fault.isMissingValue = true →
    error.offset = source.utf8ByteSize ∧ source.toList.getLast? ≠ some '\n'

/-- The items of a source and of the one with carriage returns correspond one by one: the same
entry, but for a value that is filled in, or failures that tell the same at corresponding places. -/
def ItemsAlike (source : String) : Prop :=
  List.Forall₂ ((ofReturns source.toList).SameItem source.toList) (items true source.toList)
    (items true (withReturns source).toList)

/-- The resource of a source with carriage returns has the same entries. -/
def EntriesAlike (source : String) : Prop :=
  (Resource.parse (withReturns source)).entries = (Resource.parse source).entries

/-- The resource of a source with carriage returns has errors of the same kinds. -/
def KindsAlike (source : String) : Prop :=
  (Resource.parse (withReturns source)).errors.map (·.fault.kind) =
    (Resource.parse source).errors.map (·.fault.kind)

section

variable {source : String}

theorem ofReturns_lineEnd (text : List Char) : (ofReturns text).lineEnd ≠ ['\n'] := by
  simp [ofReturns, crlf]

theorem departs_ofReturns_iff {failure : Failure} (hs : failure.rest <:+ source.toList) :
    (ofReturns source.toList).Departs failure ↔
      failure.fault.isMissingValue = true ∧
        ¬((failure.locate source.toList).offset = source.utf8ByteSize ∧
          source.toList.getLast? ≠ some '\n') := by
  rw [Failure.locate_offset_eq hs, Departs, not_and_or, not_not]
  simp [ofReturns, crlf]

theorem lineEndsAlike_iff_faithful :
    LineEndsAlike source ↔ (ofReturns source.toList).Faithful true source.toList := by
  constructor
  · rintro ⟨hc, hv⟩
    refine ⟨fun _ => hc, fun failure hm hf => ?_⟩
    obtain ⟨hm', hn⟩ := (departs_ofReturns_iff (items_failure_suffix hm)).mp hf
    exact hn (hv _ (Resource.mem_parse_errors.mpr ⟨failure, hm, rfl⟩) hm')
  · rintro ⟨hc, hf⟩
    refine ⟨hc (ofReturns_lineEnd _), fun error he hm => ?_⟩
    obtain ⟨failure, hi, rfl⟩ := Resource.mem_parse_errors.mp he
    refine Classical.byContradiction fun hn => ?_
    exact hf failure hi ((departs_ofReturns_iff (items_failure_suffix hi)).mpr ⟨hm, hn⟩)

theorem lineEndsAlike_iff_itemsAlike (h : '\r' ∉ source.toList) :
    LineEndsAlike source ↔ ItemsAlike source := by
  rw [lineEndsAlike_iff_faithful, ItemsAlike, withReturns_toList]
  obtain ⟨hf, found, hs, he⟩ | ⟨hf, ha⟩ := items_agree (ofReturns_within h) fun _ _ => rfl
  · rw [he, show (ofReturns source.toList).tail = [] from rfl, items_nil, List.append_nil]
    exact iff_of_true hf hs
  · exact iff_of_false hf (ha.not_same (ofReturns_lineEnd _))

theorem ItemsAlike.kinds (h : ItemsAlike source) : KindsAlike source := by
  rw [KindsAlike, Resource.parse_errors, Resource.parse_errors]
  exact kinds_of_same h

/-- Readings that correspond have the same entries exactly if none of them lacks a value, as those
with carriage returns have one each. -/
theorem ItemsAlike.entries_iff (h : ItemsAlike source) : EntriesAlike source ↔ Valued source := by
  have hfill : ∀ id : String, (Resource.parse (withReturns source)).entries[id]? =
      (Resource.parse source).entries[id]?.map Entry.filled :=
    foldl_addTo_filled (ofReturns_lineEnd _) h (by simp)
  constructor
  · intro he id attributes hn
    have hsame := hfill id
    rw [he, hn] at hsame
    simp [Entry.filled] at hsame
  · intro hn
    refine Std.ExtTreeMap.ext_getElem? fun id => ?_
    rw [hfill]
    cases hx : (Resource.parse source).entries[id]? with
    | none => rfl
    | some entry =>
      cases entry with
      | text => rfl
      | node value attributes =>
        cases value with
        | none => exact absurd hx (hn id attributes)
        | some => rfl

/-- In a source with carriage returns that ends with a line end, no value is missing. -/
theorem withReturns_noneMissing (h : '\r' ∉ source.toList)
    (hend : source.toList.getLast? = some '\n') : NoneMissing (withReturns source) := by
  intro error he
  refine Bool.eq_false_iff.mpr fun hm => ?_
  obtain ⟨failure, hf, rfl⟩ := Resource.mem_parse_errors.mp he
  have hl := ofReturns_lineEnd source.toList
  have hclosed : (ofReturns source.toList).closed = true := by simp [ofReturns, crlf, hend]
  have hitems := withReturns_toList source ▸ hf
  exact not_departs_of_apply (ofReturns_within h) hl hitems (.inr ⟨hl, hm, .inr hclosed⟩)

theorem KindsAlike.noneMissing (hk : KindsAlike source) (h : '\r' ∉ source.toList)
    (hend : source.toList.getLast? = some '\n') : NoneMissing source := by
  intro error he
  have hmem : error.fault.kind ∈
      (Resource.parse (withReturns source)).errors.map (·.fault.kind) := by
    rw [hk]
    exact List.mem_map_of_mem he
  obtain ⟨error', he', hkind⟩ := List.mem_map.mp hmem
  rw [← Fault.isMissingValue_kind, ← hkind, Fault.isMissingValue_kind]
  exact withReturns_noneMissing h hend error' he'

end

/-- The readings of a source and of the one with carriage returns correspond exactly if its line
ends are read alike. The errors are of the same kinds then, and the entries are the same if each of
them has a value. Of a source that ends with a line end, the errors are of the same kinds only if
none of them is that a value is missing; unless a comment is a number sign alone, this and a value
for each entry are all it takes. -/
theorem parse_withReturns {source : String} (h : '\r' ∉ source.toList) :
    (LineEndsAlike source ↔ ItemsAlike source) ∧
    (LineEndsAlike source → KindsAlike source ∧ (EntriesAlike source ↔ Valued source)) ∧
    (source.toList.getLast? = some '\n' →
      (KindsAlike source → NoneMissing source) ∧
      (CommentsSpaced source →
        (EntriesAlike source ∧ KindsAlike source ↔ Valued source ∧ NoneMissing source))) := by
  have hsame := lineEndsAlike_iff_itemsAlike h
  refine ⟨hsame, fun halike => ?_, fun hend => ⟨fun hk => hk.noneMissing h hend, fun hc => ?_⟩⟩
  · exact ⟨(hsame.mp halike).kinds, (hsame.mp halike).entries_iff⟩
  · have halike (hn : NoneMissing source) : ItemsAlike source :=
      hsame.mp ⟨hc, fun error he hm => absurd hm (Bool.eq_false_iff.mp (hn error he))⟩
    constructor
    · rintro ⟨he, hk⟩
      have hn := hk.noneMissing h hend
      exact ⟨(halike hn).entries_iff.mp he, hn⟩
    · rintro ⟨hv, hn⟩
      exact ⟨(halike hn).entries_iff.mpr hv, (halike hn).kinds⟩

/-- A message without a value has an empty one when a carriage return precedes its line feed. -/
theorem parse_withReturns_no_value : ¬KindsAlike "a =\n" := by
  intro hk
  have he : (Resource.parse "a =\n").errors = [⟨.messageWithoutValue, 4, 2, 1⟩] := by cbv
  have hmissing := ((parse_withReturns (show '\r' ∉ "a =\n".toList by decide)).2.2 rfl).1 hk
  rw [NoneMissing, he] at hmissing
  exact Bool.noConfusion (hmissing _ List.mem_cons_self)

end Fluent.Grammar
