import Fluent.Proofs.Resource
import Fluent.Proofs.Transcription.Placeable

/-!
# Entries of a text and of its transcription

An entry is read alike from a text and from its transcription, with one exception: where carriage
returns are added, a message without a value has an empty one.

* `message_agree`: both read the same entry, or the second one gives it an empty value.
-/

namespace Fluent.Grammar.Transcription

open Fluent.Grammar.Parser Fluent.Text.Reader

/-- What is read and left for an entry: where carriage returns are added, it has a value. -/
def ReadsEntry (T : Transcription) (read : String × Entry) (rest : List Char) : Prop :=
  T.Within rest ∧ (T.lineEnd ≠ ['\n'] → ∀ attributes, read.2 ≠ .node none attributes)

/-- The first of two readings of an entry finds attributes only, the second one an empty value in
front of them. -/
def Valueless (T : Transcription) (text : List Char)
    (x y : Except Failure ((String × Entry) × List Char)) : Prop :=
  T.lineEnd ≠ ['\n'] ∧ ∃ id attributes rest, rest <:+ text ∧ T.Within rest ∧
    x = .ok ((id, .node none (some attributes)), rest) ∧
    y = .ok ((id, .node (some (.text "")) (some attributes)), T.apply rest)

section

variable {T : Transcription} {text rest : List Char} {α : Type}

theorem Valueless.mono {x y : Except Failure ((String × Entry) × List Char)}
    (h : T.Valueless rest x y) (hs : rest <:+ text) : T.Valueless text x y := by
  obtain ⟨hl, id, attributes, after, ha, hw, hx, hy⟩ := h
  exact ⟨hl, id, attributes, after, ha.trans hs, hw, hx, hy⟩

theorem Valueless.alone {x y : Except Failure ((String × Entry) × List Char)}
    (h : T.Valueless text x y) : T.Alone text T.ReadsEntry y := by
  obtain ⟨hl, id, attributes, after, ha, hw, -, rfl⟩ := h
  exact ⟨hl, after, ha, ⟨hw, fun _ _ => by simp⟩, rfl⟩

/-- As `Agree.bind`, where an entry can lack a value. -/
theorem Agree.bindEntry {mid : α → List Char → Prop} {p q : Parser α}
    {k l : α → Parser (String × Entry)} {text' : List Char}
    (h : T.Agree text mid (p text) (q text'))
    (hk : ∀ a rest, rest <:+ text → mid a rest →
      T.Agree rest T.ReadsEntry (k a rest) (l a (T.apply rest)) ∨
        T.Valueless rest (k a rest) (l a (T.apply rest))) :
    T.Agree text T.ReadsEntry ((p >>= k) text) ((q >>= l) text') ∨
      T.Valueless text ((p >>= k) text) ((q >>= l) text') := by
  rw [bind_apply, bind_apply]
  generalize p text = x at h
  generalize q text' = y at h
  cases h with
  | read hr h => exact (hk _ _ hr h).imp (fun h => h.mono hr fun _ _ => id) fun h => h.mono hr
  | stopped hr ha hd => exact .inl (.stopped hr ha hd)
  | parted hr hd h =>
    refine .inl (.parted hr hd ?_)
    cases y with
    | error => exact h
    | ok y =>
      obtain ⟨b, rest'⟩ := y
      obtain ⟨hl, rest, hs, hm, rfl⟩ := h
      obtain hk | hk := hk b rest hs hm
      · exact (hk.alone hl).mono hs fun _ _ => id
      · exact hk.alone.mono hs fun _ _ => id

theorem namedPattern_agree (h : T.Inside ('.' :: text)) :
    T.Agree ('.' :: text) (fun _ => T.Within) (namedPattern ('.' :: text))
      (namedPattern (T.apply ('.' :: text))) := by
  rw [apply_cons (by decide), namedPattern, advance_bind_apply, advance_bind_apply]
  refine Agree.mono ?_ (List.suffix_cons '.' text) fun _ _ => id
  refine (identifier_agree (h.next (by decide))).bind fun name _ _ h => ?_
  refine (skipInlineBlank_agree h).bind fun _ _ _ h => ?_
  refine (expect_agree h (by decide) (by decide)).bind fun _ _ _ h => ?_
  refine (skipInlineBlank_agree h).bind fun _ rest _ h => ?_
  have hread (value : Pattern) {after : List Char} (h : T.Within after) :
      T.Agree after (fun _ => T.Within)
        ((do set (dropBlankLines (← get)); return (name, value) : Parser _) after)
        ((do set (dropBlankLines (← get)); return (name, value) : Parser _) (T.apply after)) := by
    rw [get_bind_apply, get_bind_apply, set_bind_apply, set_bind_apply, dropBlankLines_apply h]
    exact .read (dropBlankLines_suffix after) (h.suffix (dropBlankLines_suffix after))
  obtain hv | ⟨after, hs, hw, hl, hr, -, hx, hy⟩ :=
    pattern_agree (placeable_agree T deepestNesting) h
  · refine hv.bind fun value rest _ h => ?_
    cases value with
    | none => exact value_missing rfl fun hl => h.2 hl rfl
    | some value => exact hread value h.1
  · rw [bind_ok (show pattern entryPlaceable rest = _ from hx),
      bind_ok (show pattern entryPlaceable (T.apply rest) = _ from hy)]
    exact (hread (.text "") hw).missing hs rfl hl hr

theorem attributeRound_agree (h : T.Within text) (attributes : Table Pattern) :
    T.Agree text (AfterRound (fun _ => T.Within) fun _ => T.Within)
      (attributeRound attributes text) (attributeRound attributes (T.apply text)) := by
  rw [attributeRound_apply, attributeRound_apply]
  simp only [h.head?_apply (c := ' ') (by simp [IsMark])]
  split
  · have hi := h.inside fun hn => by simp_all
    obtain ⟨-, hd, hi⟩ := hi.takeWhile_apply (p := Text.isInlineBlank) rfl rfl
    have hs := List.dropWhile_suffix (l := text) Text.isInlineBlank
    simp only [hd, hi.head?_apply (c := '.') (by decide) (by decide)]
    split
    · obtain ⟨rest, hr⟩ := List.head?_eq_some_iff.mp ‹_›
      rw [hr] at hi hs ⊢
      refine Agree.mono ?_ hs fun _ _ => id
      exact (namedPattern_agree hi).bind fun read _ _ h => pure_agree h
    · exact .read hs hi.toWithin
  · exact .read (List.suffix_refl _) h

theorem attributes_agree (h : T.Within text) :
    T.Agree text (fun _ => T.Within) (iterate attributeRound ∅ text)
      (iterate attributeRound ∅ (T.apply text)) :=
  Agree.iterate (fun _ => id) (fun attributes _ _ h => attributeRound_agree h attributes) h ∅

theorem attributes?_agree (h : T.Within text) :
    T.Agree text (fun _ => T.Within) (attributes? text) (attributes? (T.apply text)) := by
  rw [attributes?_apply, attributes?_apply]
  simp only [h.head?_apply (c := ' ') (by simp [IsMark])]
  split
  · have hi := h.inside fun hn => by simp_all
    obtain ⟨-, hd, hi⟩ := hi.takeWhile_apply (p := Text.isInlineBlank) rfl rfl
    simp only [hd, hi.head?_apply (c := '.') (by decide) (by decide)]
    split
    · exact (attributes_agree h).bind fun _ _ _ h => pure_agree h
    · exact .read (List.dropWhile_suffix _) hi.toWithin
  · exact .read (List.suffix_refl _) h

theorem messageHead_agree (h : T.Inside text) :
    T.Agree text (fun _ => T.Inside) (messageHead text) (messageHead (T.apply text)) := by
  refine (entryIdentifier_agree h).bind fun id _ _ h => ?_
  refine (skipInlineBlank_agree h).bind fun _ _ _ h => ?_
  refine (expect_agree h (by decide) (by decide)).bind fun _ _ _ h => ?_
  refine (skipInlineBlank_agree h).bind fun _ _ _ h => ?_
  exact pure_agree h

theorem messageTail_agree (id : String) {value : Option Pattern} (h : T.ReadsValue value text) :
    T.Agree text T.ReadsEntry (messageTail id value text)
      (messageTail id value (T.apply text)) := by
  rw [messageTail, choice_apply, choice_apply]
  split
  · rename_i hv
    exact value_missing rfl fun hl => h.2 hl (Option.isNone_iff_eq_none.mp hv.2)
  · by_cases hn : T.lineEnd ≠ ['\n'] ∧ value = none
    · obtain ⟨hl, rfl⟩ := hn
      obtain ⟨rfl, hc⟩ := h.2 hl rfl
      have ht := (T.lineEnd_cases.resolve_left hl).2
      have hread : T.Agree [] T.ReadsEntry (.error ⟨.messageWithoutValue, []⟩)
          (.error ⟨.messageWithoutValue, T.apply []⟩) := value_missing rfl fun _ => ⟨rfl, hc⟩
      rw [apply_nil, ht] at hread ⊢
      exact hread
    · refine (attributes?_agree h.1).bind fun attributes rest _ hw => ?_
      cases value with
      | none =>
        have hl : T.lineEnd = ['\n'] := Classical.byContradiction fun hl => hn ⟨hl, rfl⟩
        cases attributes with
        | none => exact value_missing rfl fun hl' => absurd hl hl'
        | some attributes => exact pure_agree ⟨hw, fun hl' => absurd hl hl'⟩
      | some value => cases value <;> cases attributes <;> exact pure_agree ⟨hw, by simp⟩

/-- Where a text has no value, the entry has an empty one, if anything, when carriage returns are
added. -/
theorem messageTail_emptied (id : String) (h : T.Within text) (hl : T.lineEnd ≠ ['\n'])
    (hr : text ≠ [] ∨ T.closed = true) (he : EndsValue text) :
    T.Agree text T.ReadsEntry (messageTail id none text)
        (messageTail id (some (.text "")) (T.apply text)) ∨
      T.Valueless text (messageTail id none text)
        (messageTail id (some (.text "")) (T.apply text)) := by
  have hread : T.Agree text T.ReadsEntry (messageTail id (some (.text "")) text)
      (messageTail id (some (.text "")) (T.apply text)) :=
    messageTail_agree id ⟨h, by simp⟩
  by_cases ht : EntryKind.ofId id = .term
  · left
    rw [messageTail, choice_apply, if_pos ⟨ht, rfl⟩]
    exact hread.missing (List.suffix_refl _) rfl hl hr
  · by_cases ha : StartsAttribute text
    · have ha' : StartsAttribute (T.apply text) := by
        obtain ⟨-, hd, hi⟩ :=
          (h.inside fun hn => by simp [hn, StartsAttribute] at ha).takeWhile_apply
          (p := Text.isInlineBlank) rfl rfl
        refine ⟨(h.head?_apply (by simp [IsMark])).mpr ha.1, ?_⟩
        rw [hd]
        exact (hi.head?_apply (by decide) (by decide)).mpr ha.2
      have hread := attributes_agree h
      rw [messageTail_attributes (fun h => absurd h ht) ha, messageTail_attributes (by simp) ha',
        bind_apply, bind_apply]
      generalize iterate attributeRound ∅ text = x at hread
      generalize iterate attributeRound ∅ (T.apply text) = y at hread
      cases hread with
      | read hs hw => exact .inr ⟨hl, id, _, _, hs, hw, rfl, rfl⟩
      | stopped hs ha hd => exact .inl (.stopped hs ha hd)
      | parted hs hd hy =>
        refine .inl (.parted hs hd ?_)
        cases y with
        | error => exact hy
        | ok y =>
          obtain ⟨hl, rest, hs, hw, he⟩ := hy
          exact ⟨hl, rest, hs, ⟨hw, by simp⟩, he⟩
    · left
      have hnone : attributes? text = .ok (none, text) := by
        rw [attributes?_apply]
        split
        · rw [if_neg fun hd => ha ⟨‹_›, hd⟩]
          exact absurd (he.resolve_left fun hn => hn ‹_›) fun hd => ha ⟨‹_›, hd⟩
        · rfl
      rw [messageTail, choice_apply, if_neg (fun h => ht h.1), bind_ok hnone]
      exact hread.missing (List.suffix_refl _) rfl hl hr

theorem messageBody_agree (id : String) (h : T.Inside text) :
    T.Agree text T.ReadsEntry (messageBody id text) (messageBody id (T.apply text)) ∨
      T.Valueless text (messageBody id text) (messageBody id (T.apply text)) := by
  obtain hv | ⟨after, hs, hw, hl, hr, he, hx, hy⟩ :=
    pattern_agree (placeable_agree T deepestNesting) h
  · exact .inl (hv.bind fun value rest _ h => messageTail_agree id h)
  · rw [messageBody, bind_ok (show pattern entryPlaceable text = _ from hx),
      bind_ok (show pattern entryPlaceable (T.apply text) = _ from hy)]
    exact (messageTail_emptied id hw hl hr he).imp (fun h => h.mono hs fun _ _ h => h)
      fun h => h.mono hs

/-- Both readings of an entry agree, or the first one finds attributes only and the second one an
empty value in front of them. -/
theorem message_agree (h : T.Inside text) :
    T.Agree text T.ReadsEntry (message text) (message (T.apply text)) ∨
      T.Valueless text (message text) (message (T.apply text)) := by
  rw [message_eq]
  exact (messageHead_agree h).bindEntry fun id rest _ h => messageBody_agree id h

end

end Fluent.Grammar.Transcription
