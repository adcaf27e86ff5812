import Fluent.Proofs.Progress
import Mathlib.Data.List.Forall2

/-!
# Resources and their transcriptions

The attempts at entries and comments correspond, one by one, until the first one that departs: at a
failure or at a comment that is a number sign and a line end.

* `resume_apply`: reading goes on at corresponding places;
* `attempt_agree`: what an attempt comes to in a text and in its transcription;
* `items_agree`: the items of a text and of its transcription are the same if none departs, and part
  otherwise.
-/

/-- The entry with an empty value, if it has none. -/
def Fluent.Entry.filled : Fluent.Entry → Fluent.Entry
  | .node none attributes => .node (some (.text "")) attributes
  | entry => entry

namespace Fluent.Grammar.Transcription

open Fluent.Grammar.Parser Fluent.Text.Reader

/-- The entry that is read from a transcription in the place of another: where carriage returns are
added, it has a value. -/
def entryOf (T : Transcription) (entry : Entry) : Entry :=
  if T.lineEnd = ['\n'] then entry else entry.filled

/-- Two items that tell the same. -/
inductive SameItem (T : Transcription) (text : List Char) : Item → Item → Prop
  | entry {id entry} : SameItem T text (.entry id entry) (.entry id (T.entryOf entry))
  | failure {failure failure'} : T.Alike text failure failure' →
      SameItem T text (.failure failure) (.failure failure')

/-- Nothing in a text departs from its transcription: it has no comment that is a number sign and a
line end, if carriage returns are added, and none of its failures departs. -/
structure Faithful (T : Transcription) (lineStart : Bool) (text : List Char) : Prop where
  comments : T.lineEnd ≠ ['\n'] →
    ∀ start ∈ starts lineStart text, ∀ rest, start ≠ '#' :: '\n' :: rest
  failures : ∀ failure, .failure failure ∈ items lineStart text → ¬T.Departs failure

/-- The items of a text are those of its transcription, less those of the tail. -/
def ReadAlike (T : Transcription) (lineStart : Bool) (text : List Char) : Prop :=
  ∃ found, List.Forall₂ (T.SameItem text) (items lineStart text) found ∧
    items lineStart (T.apply text) = found ++ items true T.tail

/-- The items of a text and of its transcription are the same up to the place where they part. -/
def ReadApart (T : Transcription) (lineStart : Bool) (text : List Char) : Prop :=
  ∃ same same' rest item' rest',
    items lineStart text = same ++ rest ∧ items lineStart (T.apply text) = same' ++ item' :: rest' ∧
    List.Forall₂ (T.SameItem text) same same' ∧
    (T.lineEnd ≠ ['\n'] → ∀ item source, rest.head? = some item → ¬T.SameItem source item item') ∧
    (T.tail ≠ [] → ∃ failure lineStart start, item' = .failure failure ∧ start ≠ [] ∧
      T.Swallowed failure.rest ∧ rest' = items lineStart (resume (T.apply start) failure.rest))

section

variable {T : Transcription} {text rest start : List Char} {lineStart : Bool}

theorem SameItem.mono {item item' : Item} (h : T.SameItem rest item item') (hs : rest <:+ text) :
    T.SameItem text item item' := by
  cases h with
  | entry => exact .entry
  | failure h => exact .failure (h.mono hs)

theorem ReadAlike.mono (h : T.ReadAlike lineStart rest) (hs : rest <:+ text) : ∃ found,
    List.Forall₂ (T.SameItem text) (items lineStart rest) found ∧
      items lineStart (T.apply rest) = found ++ items true T.tail := by
  obtain ⟨found, hf, hi⟩ := h
  exact ⟨found, hf.imp fun _ _ h => h.mono hs, hi⟩

theorem atLineStart_apply (hs : rest <:+ text) :
    atLineStart lineStart (T.apply text) (T.apply rest) = atLineStart lineStart text rest := by
  obtain ⟨front, rfl⟩ := hs
  rw [apply, List.flatMap_append, List.append_assoc]
  change atLineStart lineStart (_ ++ T.apply rest) (T.apply rest) = _
  rw [atLineStart_append, atLineStart_append]
  rcases List.eq_nil_or_concat front with rfl | ⟨front, c, rfl⟩
  · rfl
  · rw [List.concat_eq_append, List.flatMap_append, List.getLast?_concat]
    by_cases hc : c = '\n'
    · obtain he | ⟨he, -⟩ := T.lineEnd_cases <;> simp [hc, he]
    · simp [hc]

/-- Behind the last line end of a closed text a line starts. -/
theorem Within.atLineStart_nil (h : T.Within text) (hc : T.closed = true)
    (hls : text = [] → lineStart = true) : atLineStart lineStart text [] = true := by
  have ha := atLineStart_append lineStart text []
  rw [List.append_nil] at ha
  rw [ha]
  by_cases hn : text = []
  · rw [hn]
    exact hls hn
  · rw [(h.ended hn).mpr hc]
    rfl

theorem nextEntry_apply (h : T.Within text)
    (hls : T.closed = true → text = [] → lineStart = true) :
    nextEntry lineStart (T.apply text) = T.apply (nextEntry lineStart text) := by
  induction text generalizing lineStart with
  | nil =>
    obtain ht | ⟨ht, hc⟩ := T.tail_cases
    · rw [apply_nil, ht, nextEntry, apply_nil, ht]
    · obtain ⟨c, rest, he, hh⟩ := ht.cases
      rw [apply_nil, nextEntry, apply_nil, he, nextEntry, hls hc rfl, if_pos]
      simpa using hh.imp_right And.left
  | cons c rest ih =>
    by_cases hc : c = '\n'
    · subst hc
      have ih := ih h.next fun _ _ => rfl
      obtain he | ⟨-, he⟩ := T.apply_lineFeed_cases rest <;> rw [he] <;>
        simp [nextEntry, ih]
    · rw [apply_cons hc, nextEntry, nextEntry]
      split
      · rw [apply_cons hc]
      · rw [beq_false_of_ne hc]
        refine ih h.next fun ht hn => ?_
        subst hn
        have := (h.ended (by simp)).mpr ht
        simp [hc] at this

theorem resume_apply {c : Char} {stop stop' : List Char} (h : T.Within (c :: text)) (hc : c ≠ '\n')
    (hs : stop <:+ c :: text) (hs' : T.Stops (c :: text) stop stop') :
    resume (T.apply (c :: text)) stop' = T.apply (resume (c :: text) stop) := by
  have goesOn {stop : List Char} (hs : stop <:+ c :: text) :
      nextEntry (atLineStart false (T.apply (c :: text)) (T.apply stop)) (T.apply stop) =
        T.apply (nextEntry (atLineStart false (c :: text) stop) stop) := by
    rw [atLineStart_apply hs]
    exact nextEntry_apply (h.suffix hs) fun ht hn => hn ▸ h.atLineStart_nil ht nofun
  obtain rfl | ⟨-, next, hn, hr, rfl⟩ := hs'
  · rw [resume, resume]
    simp only [T.length_lt_iff hs]
    split
    · exact goesOn hs
    · have hd := goesOn (List.suffix_cons c text)
      rw [apply_cons hc] at hd ⊢
      exact hd
  · have hn' : '\n' :: T.apply next <:+ T.apply (c :: text) := by
      refine List.IsSuffix.trans ?_ (T.apply_suffix hn)
      obtain he | ⟨-, he⟩ := T.apply_lineFeed_cases next
      · exact he ▸ List.suffix_refl _
      · exact he ▸ List.suffix_cons _ _
    rw [resume_lineEnd hn' (.inr rfl), resume_lineEnd hn hr]
    exact nextEntry_apply (h.suffix hn).next fun _ _ => rfl

/-- The line that starts here goes on with the comment of the line before it, if it is one. -/
def GoesOn (text : List Char) : Prop :=
  ∃ c rest, text = '#' :: c :: rest ∧ (c = ' ' ∨ c = '#')

theorem Within.goesOn_of_apply (h : T.Within text) (hg : GoesOn (T.apply text)) : GoesOn text := by
  obtain ⟨c, rest, he, hc⟩ := hg
  obtain ⟨text, rfl⟩ := List.head?_eq_some_iff.mp
    ((h.head?_apply (c := '#') (by simp [IsMark])).mp (by rw [he, List.head?_cons]))
  rw [apply_cons (by decide), List.cons.injEq] at he
  have hi := (h.inside (by simp)).next (by decide)
  have hh : text.head? = some c := by
    rw [← hi.head?_apply (by obtain rfl | rfl := hc <;> decide)
      (by obtain rfl | rfl := hc <;> decide), he.2, List.head?_cons]
  obtain ⟨rest, rfl⟩ := List.head?_eq_some_iff.mp hh
  exact ⟨c, rest, rfl, hc⟩

theorem dropComment_lineFeed (h : ¬GoesOn rest) : dropComment ('\n' :: rest) = rest := by
  rw [dropComment]
  · exact fun next hn => h ⟨' ', next, hn, .inl rfl⟩
  · exact fun next hn => h ⟨'#', next, hn, .inr rfl⟩

theorem dropComment_apply (h : T.Inside text) :
    dropComment (T.apply text) = T.apply (dropComment text) := by
  have skipped (t : List Char) : dropComment ('\r' :: t) = dropComment t := rfl
  have goesOn (c : Char) (hc : c ≠ '\n') (rest : List Char)
      (hd : dropComment ('\n' :: '#' :: c :: T.apply rest) = dropComment (T.apply rest)) :
      dropComment (T.apply ('\n' :: '#' :: c :: rest)) = dropComment (T.apply rest) := by
    have he : T.apply ('#' :: c :: rest) = '#' :: c :: T.apply rest := by
      rw [apply_cons (by decide), apply_cons hc]
    obtain hl | ⟨-, hl⟩ := T.apply_lineFeed_cases ('#' :: c :: rest) <;> rw [hl, he]
    · exact hd
    · exact hd
  fun_induction dropComment text with
  | case1 rest ih =>
    have hi := (h.toWithin.next.inside (by simp)).next (by decide) |>.next (by decide)
    rw [goesOn ' ' (by decide) rest rfl, ih hi]
  | case2 rest ih =>
    have hi := (h.toWithin.next.inside (by simp)).next (by decide) |>.next (by decide)
    rw [goesOn '#' (by decide) rest rfl, ih hi]
  | case3 rest h₁ h₂ =>
    have hr : dropComment ('\n' :: T.apply rest) = T.apply rest := by
      refine dropComment_lineFeed fun hg => ?_
      obtain ⟨c, next, rfl, rfl | rfl⟩ := h.toWithin.next.goesOn_of_apply hg
      · exact h₁ next rfl
      · exact h₂ next rfl
    obtain hl | ⟨-, hl⟩ := T.apply_lineFeed_cases rest <;> rw [hl]
    · exact hr
    · exact hr
  | case4 c rest h₁ h₂ h₃ ih =>
    have hc : c ≠ '\n' := h₃
    rw [apply_cons hc, ← ih (h.next hc), dropComment.eq_4] <;> simp [hc]
  | case5 => rw [apply_nil, h.nil.2, dropComment]

/-- A comment starts where one does in the transcription, unless it is a number sign alone. -/
theorem startsComment_apply (h : T.Inside text)
    (hb : T.lineEnd ≠ ['\n'] → ∀ rest, text ≠ '#' :: '\n' :: rest) :
    startsComment (T.apply text) = startsComment text := by
  have other {c : Char} (hc : c ≠ '#') (rest : List Char) : startsComment (c :: rest) = false := by
    rw [startsComment]
    rintro d next ⟨⟩
    exact hc rfl
  obtain ⟨rfl, ht⟩ | ⟨rest, rfl, -⟩ | ⟨c, rest, rfl, hc, hi⟩ := h.cases
  · rw [apply_nil, ht]
  · obtain he | ⟨-, he⟩ := T.apply_lineFeed_cases rest <;> rw [he] <;>
      rw [other (by decide), other (by decide)]
  · rw [apply_cons hc]
    by_cases hn : c = '#'
    · subst hn
      obtain ⟨rfl, ht⟩ | ⟨rest, rfl, -⟩ | ⟨d, rest, rfl, hd, -⟩ := hi.cases
      · rw [apply_nil, ht]
      · obtain he | ⟨hl, -⟩ := T.apply_lineFeed_cases rest
        · rw [he]
          rfl
        · exact absurd rfl (hb hl rest)
      · rw [apply_cons hd]
        rfl
    · rw [other hn, other hn]

/-- A failure that departs tells something else than one that does not. -/
theorem Alike.departs {failure failure' : Failure} (h : T.Alike text failure failure')
    (hl : T.lineEnd ≠ ['\n']) (hd : T.Departs failure) : T.Departs failure' := by
  have ht : T.tail = [] := (T.lineEnd_cases.resolve_left hl).2
  obtain ⟨ht', -⟩ | ⟨-, hm, hr⟩ := hd
  · exact absurd ht ht'
  · refine .inr ⟨hl, ?_, hr.imp_left fun hr hn => hr ?_⟩
    · rw [← Fault.isMissingValue_kind, ← h.kind, Fault.isMissingValue_kind, hm]
    · have hle := T.length_flatMap failure.rest
      rw [h.missing hm, apply, List.append_eq_nil_iff] at hn
      rw [hn.1] at hle
      exact List.length_eq_zero_iff.mp (Nat.le_zero.mp hle)

/-- The items of an attempt at a text and at its transcription tell the same. -/
def SameFound (T : Transcription) (lineStart : Bool) (start : List Char) : Prop :=
  (attempt lineStart (T.apply start)).2 = T.apply (attempt lineStart start).2 ∧
    List.Forall₂ (T.SameItem start) (attempt lineStart start).1
      (attempt lineStart (T.apply start)).1 ∧
    ∀ failure, .failure failure ∈ (attempt lineStart start).1 → ¬T.Departs failure

/-- An attempt at a text fails and departs from what is found in the transcription. -/
def FoundParts (T : Transcription) (lineStart : Bool) (start : List Char) : Prop :=
  ∃ failure item', (attempt lineStart start).1 = [.failure failure] ∧ T.Departs failure ∧
    (attempt lineStart (T.apply start)).1 = [item'] ∧
    (T.lineEnd ≠ ['\n'] → ∀ source, ¬T.SameItem source (.failure failure) item') ∧
    (T.tail ≠ [] → ∃ failure', item' = .failure failure' ∧ T.Swallowed failure'.rest ∧
      (attempt lineStart (T.apply start)).2 = resume (T.apply start) failure'.rest)

theorem attempt_stopped {c : Char} (h : T.Within (c :: text)) (hc : c ≠ '\n')
    {failure failure' : Failure}
    (hx : entryOrComment lineStart (c :: text) = .error failure)
    (hy : entryOrComment lineStart (T.apply (c :: text)) = .error failure')
    (hs : failure.rest <:+ c :: text) (ha : T.Alike (c :: text) failure failure')
    (hd : ¬T.Departs failure) : T.SameFound lineStart (c :: text) := by
  rw [SameFound, attempt, attempt, hx, hy]
  exact ⟨resume_apply h hc hs ha.stops, .cons (.failure ha) .nil, by simpa using hd⟩

theorem attempt_read {id : String} {entry : Entry}
    (hx : entryOrComment lineStart start = .ok (some (id, entry), rest))
    (hy : entryOrComment lineStart (T.apply start) =
      .ok (some (id, T.entryOf entry), T.apply rest)) :
    T.SameFound lineStart start := by
  rw [SameFound, attempt, attempt, hx, hy]
  exact ⟨rfl, .cons .entry .nil, by simp⟩

/-- Where a failure departs, the transcription holds an entry or a failure that does not. -/
theorem attempt_parted {failure : Failure} (hd : T.Departs failure)
    (hx : entryOrComment lineStart start = .error failure)
    (hy : (T.lineEnd ≠ ['\n'] ∧ ∃ id entry rest', entryOrComment lineStart (T.apply start) =
        .ok (some (id, entry), rest')) ∨
      ∃ failure', entryOrComment lineStart (T.apply start) = .error failure' ∧
        (T.tail ≠ [] → T.Swallowed failure'.rest) ∧
        (T.lineEnd ≠ ['\n'] → ¬T.Departs failure')) : T.FoundParts lineStart start := by
  have hfound : (attempt lineStart start).1 = [.failure failure] := by rw [attempt, hx]
  obtain ⟨hl, id, entry, rest', hy⟩ | ⟨failure', hy, hw, hd'⟩ := hy
  · refine ⟨failure, .entry id entry, hfound, hd, ?_, ?_, ?_⟩
    · rw [attempt, hy]
    · rintro - source ⟨⟩
    · exact fun ht => absurd (T.lineEnd_cases.resolve_left hl).2 ht
  · refine ⟨failure, .failure failure', hfound, hd, ?_, ?_, ?_⟩
    · rw [attempt, hy]
    · rintro hl source (_ | ha)
      exact hd' hl (ha.departs hl hd)
    · refine fun ht => ⟨failure', rfl, hw ht, ?_⟩
      rw [attempt, hy]

theorem entryOf_of_valued {entry : Entry}
    (h : T.lineEnd ≠ ['\n'] → ∀ attributes, entry ≠ .node none attributes) :
    T.entryOf entry = entry := by
  rw [entryOf, ite_eq_left_iff]
  intro hl
  cases entry with
  | text => rfl
  | node value attributes =>
    cases value with
    | none => exact absurd rfl (h hl attributes)
    | some => rfl

/-- An attempt at an entry comes to the same in a text and in its transcription, unless it
departs. -/
theorem attempt_entry_agree {c : Char} (h : T.Within (c :: text)) (hc : c ≠ '\n')
    (hs : startsComment (c :: text) = false) (hs' : startsComment (T.apply (c :: text)) = false) :
    T.SameFound true (c :: text) ∨ T.FoundParts true (c :: text) := by
  have read (t : List Char) (ht : startsComment t = false) :
      entryOrComment true t = (do return some (← message) : Parser _) t := by
    rw [entryOrComment_apply, if_pos rfl, ht, if_neg Bool.false_ne_true]
  have hx := read _ hs
  have hy := read _ hs'
  rw [bind_apply] at hx hy
  have hm := message_agree (h.inside (List.cons_ne_nil _ _))
  generalize message (c :: text) = x at hx hm
  generalize message (T.apply (c :: text)) = y at hy hm
  obtain hm | ⟨hl, id, attributes, rest, hr, hw, rfl, rfl⟩ := hm
  · cases hm with
    | @read a rest hr hw =>
      obtain ⟨id, entry⟩ := a
      refine .inl (attempt_read hx ?_)
      rw [entryOf_of_valued hw.2]
      exact hy
    | stopped hr ha hd => exact .inl (attempt_stopped h hc hx hy hr ha hd)
    | @parted failure _ hr hd ha =>
      refine .inr (attempt_parted hd hx ?_)
      cases y with
      | ok y => exact .inl ⟨ha.1, y.1.1, y.1.2, y.2, hy⟩
      | error failure' => exact .inr ⟨failure', hy, ha⟩
  · refine .inl (attempt_read hx ?_)
    rw [entryOf, if_neg hl]
    exact hy

theorem attempt_agree (lineStart : Bool) {c : Char} (h : T.Within (c :: text)) (hc : c ≠ '\n')
    (hb : lineStart = true → T.lineEnd ≠ ['\n'] → ∀ rest, c :: text ≠ '#' :: '\n' :: rest) :
    T.SameFound lineStart (c :: text) ∨ T.FoundParts lineStart (c :: text) := by
  cases lineStart with
  | false =>
    have hx : entryOrComment false (c :: text) = .error ⟨.expectedEntryStart, c :: text⟩ := rfl
    refine .inl (attempt_stopped h hc hx rfl (List.suffix_refl _) ⟨rfl, .inl rfl, nofun⟩ ?_)
    rintro (⟨-, hn⟩ | ⟨-, hm, -⟩)
    · cases hn
    · cases hm
  | true =>
    have hi := h.inside (List.cons_ne_nil _ _)
    have hsame := startsComment_apply hi (hb rfl)
    cases hs : startsComment (c :: text) with
    | false => exact attempt_entry_agree h hc hs (hsame.trans hs)
    | true =>
      left
      rw [SameFound, attempt, attempt, entryOrComment_apply, entryOrComment_apply, if_pos rfl,
        if_pos rfl, if_pos hs, if_pos (hsame.trans hs)]
      exact ⟨dropComment_apply hi, .nil, by simp⟩

/-- A comment of a number sign alone is none where a carriage return is added. -/
theorem attempt_bare (hl : T.lineEnd ≠ ['\n']) (rest : List Char) :
    attempt true ('#' :: '\n' :: rest) = ([], dropComment ('\n' :: rest)) ∧
      (attempt true (T.apply ('#' :: '\n' :: rest))).1 =
        [.failure ⟨.expectedIdentifier, '\r' :: '\n' :: T.apply rest⟩] := by
  have he : T.apply ('#' :: '\n' :: rest) = '#' :: '\r' :: '\n' :: T.apply rest := by
    rw [apply_cons (by decide), apply_lineFeed, (T.lineEnd_cases.resolve_left hl).1]
    rfl
  have hm : message ('#' :: '\r' :: '\n' :: T.apply rest) =
      .error ⟨.expectedIdentifier, '\r' :: '\n' :: T.apply rest⟩ := by
    have hh : messageHead ('#' :: '\r' :: '\n' :: T.apply rest) =
        .error ⟨.expectedIdentifier, '\r' :: '\n' :: T.apply rest⟩ := by
      rw [messageHead_apply, entryIdentifier_apply (by simp), identifier_apply]
      rfl
    rw [message_eq, bind_error hh]
  refine ⟨rfl, ?_⟩
  rw [he, attempt, entryOrComment_apply, if_pos rfl, if_neg (by simp [startsComment]),
    bind_error hm]

/-- What a failure tells that is found at a number sign alone is told by no item behind it. -/
theorem not_sameItem_bare {source : List Char} {item : Item}
    (h : item ∈ items lineStart (dropComment ('\n' :: rest))) :
    ¬T.SameItem source item (.failure ⟨.expectedIdentifier, '\r' :: '\n' :: T.apply rest⟩) := by
  rintro (_ | ha)
  rename_i failure
  have hs := (items_failure_suffix h).trans (dropComment_lineFeed_suffix rest)
  obtain he | ⟨-, next, -, -, he⟩ := ha.stops
  · have hle := (T.apply_suffix hs).length_le
    rw [show T.apply failure.rest = _ from he.symm] at hle
    simp only [List.length_cons] at hle
    omega
  · simp at he

/-- Whether a text is faithful is left to what follows an attempt that departs from nothing. -/
theorem faithful_cons {c : Char} (hc : Text.isBlank c = false)
    (hb : lineStart = true → T.lineEnd ≠ ['\n'] → ∀ rest, c :: text ≠ '#' :: '\n' :: rest)
    (hk : ∀ failure, .failure failure ∈ (attempt lineStart (c :: text)).1 → ¬T.Departs failure) :
    T.Faithful lineStart (c :: text) ↔
      T.Faithful (atLineStart lineStart (c :: text) (attempt lineStart (c :: text)).2)
        (attempt lineStart (c :: text)).2 := by
  constructor <;> rintro ⟨hs, hi⟩
  · rw [items_cons lineStart hc] at hi
    rw [starts_cons lineStart hc] at hs
    exact ⟨fun hl start h => hs hl start (List.mem_append_right _ h),
      fun item h => hi item (List.mem_append_right _ h)⟩
  · refine ⟨fun hl start h => ?_, fun item h => ?_⟩
    · rw [starts_cons lineStart hc, List.mem_append] at h
      obtain h | h := h
      · split at h
        · rw [List.mem_singleton.mp h]
          exact hb ‹_› hl
        · cases h
      · exact hs hl start h
    · rw [items_cons lineStart hc, List.mem_append] at h
      exact h.elim (hk item) (hi item)

/-- The items of a text and of its transcription are the same, and nothing departs; or something
does, and the items part. -/
def Settled (T : Transcription) (lineStart : Bool) (text : List Char) : Prop :=
  T.Faithful lineStart text ∧ T.ReadAlike lineStart text ∨
    ¬T.Faithful lineStart text ∧ T.ReadApart lineStart text

theorem Settled.blank (h : T.Within text)
    (ha : T.Settled (atLineStart lineStart text (text.dropWhile Text.isBlank))
      (text.dropWhile Text.isBlank)) : T.Settled lineStart text := by
  have hs := List.dropWhile_suffix (l := text) Text.isBlank
  have hi : items lineStart (T.apply text) =
      items (atLineStart lineStart text (text.dropWhile Text.isBlank))
        (T.apply (text.dropWhile Text.isBlank)) := by
    rw [items_dropWhile, h.dropWhile_isBlank.1, atLineStart_apply hs]
  have hf : T.Faithful lineStart text ↔
      T.Faithful (atLineStart lineStart text (text.dropWhile Text.isBlank))
        (text.dropWhile Text.isBlank) := by
    constructor <;> rintro ⟨hc, hk⟩
    · exact ⟨by rwa [starts_dropWhile] at hc, by rwa [items_dropWhile] at hk⟩
    · exact ⟨by rwa [starts_dropWhile], by rwa [items_dropWhile]⟩
  obtain ⟨hk, ha⟩ | ⟨hk, same, same', rest, item', rest', hx, hy, ha, hp⟩ := ha
  · obtain ⟨found, ha, he⟩ := ha.mono hs
    exact .inl ⟨hf.mpr hk, found, by rwa [items_dropWhile], hi.trans he⟩
  · refine .inr ⟨mt hf.mp hk, same, same', rest, item', rest', ?_, hi.trans hy, ?_, hp⟩
    · rw [items_dropWhile, hx]
    · exact ha.imp fun _ _ h => h.mono hs

theorem settled_ended (hls : T.closed = true → lineStart = true) : T.Settled lineStart [] := by
  refine .inl ⟨⟨fun _ start hs => ?_, by simp⟩, [], by simp, ?_⟩
  · rw [starts_apply] at hs
    simp at hs
  · rw [apply_nil, List.nil_append]
    obtain ht | ⟨ht, hc⟩ := T.tail_cases
    · rw [ht, items_nil, items_nil]
    · rw [hls hc]

theorem settled_bare (hl : T.lineEnd ≠ ['\n']) : T.Settled true ('#' :: '\n' :: rest) := by
  obtain ⟨hx, hy⟩ := attempt_bare hl rest
  have hi := items_cons true (show Text.isBlank '#' = false by decide)
    (T.apply ('\n' :: rest))
  rw [← apply_cons (by decide), hy] at hi
  refine .inr ⟨fun hf => hf.comments hl ('#' :: '\n' :: rest) ?_ rest rfl, [], [], _, _, _, rfl, hi,
    .nil, fun hl item source hr => ?_, ?_⟩
  · rw [starts_cons true (by decide)]
    simp
  · rw [items_cons true (by decide), hx] at hr
    exact not_sameItem_bare (List.mem_of_head? hr)
  · exact fun ht => absurd (T.lineEnd_cases.resolve_left hl).2 ht

section

variable {c : Char}

theorem items_apply_cons (hc : Text.isBlank c = false) :
    items lineStart (T.apply (c :: text)) = (attempt lineStart (T.apply (c :: text))).1 ++
      items
        (atLineStart lineStart (T.apply (c :: text)) (attempt lineStart (T.apply (c :: text))).2)
        (attempt lineStart (T.apply (c :: text))).2 := by
  have hn : c ≠ '\n' := by
    rintro rfl
    cases hc
  rw [apply_cons hn, items_cons lineStart hc]

/-- What an attempt leaves settles a text, if the attempt departs from nothing. -/
theorem Settled.cons (hc : Text.isBlank c = false)
    (hb : lineStart = true → T.lineEnd ≠ ['\n'] → ∀ rest, c :: text ≠ '#' :: '\n' :: rest)
    (hf : T.SameFound lineStart (c :: text))
    (ha : T.Settled (atLineStart lineStart (c :: text) (attempt lineStart (c :: text)).2)
      (attempt lineStart (c :: text)).2) : T.Settled lineStart (c :: text) := by
  have hs := (attempt_suffix lineStart c text).trans (List.suffix_cons c text)
  have hi : items lineStart (T.apply (c :: text)) = _ := items_apply_cons hc
  obtain ⟨hr, hf, hk⟩ := hf
  rw [hr, atLineStart_apply hs] at hi
  have hf' := faithful_cons hc hb hk
  obtain ⟨hk, ha⟩ | ⟨hk, same, same', rest, item', rest', hx, hy, ha, hp⟩ := ha
  · obtain ⟨found, ha, he⟩ := ha.mono hs
    rw [he, ← List.append_assoc] at hi
    refine .inl ⟨hf'.mpr hk, _, ?_, hi⟩
    rw [items_cons lineStart hc]
    exact List.rel_append hf ha
  · rw [hy, ← List.append_assoc] at hi
    have ha := List.rel_append hf (ha.imp fun _ _ h => h.mono hs)
    refine .inr ⟨mt hf'.mp hk, _, _, rest, item', rest', ?_, hi, ha, hp⟩
    rw [items_cons lineStart hc, hx, List.append_assoc]

theorem settled_parted (hc : Text.isBlank c = false) (hp : T.FoundParts lineStart (c :: text)) :
    T.Settled lineStart (c :: text) := by
  obtain ⟨failure, item', hx, hd, hy, hl, ht⟩ := hp
  have hi : items lineStart (T.apply (c :: text)) = _ := items_apply_cons hc
  rw [hy] at hi
  refine .inr ⟨fun hf => hf.failures failure ?_ hd, [], [], _, item', _, rfl, hi, .nil,
    fun hl' item source hr => ?_, fun ht' => ?_⟩
  · rw [items_cons lineStart hc, hx]
    simp
  · rw [items_cons lineStart hc, hx] at hr
    obtain rfl : .failure failure = item := by simpa using hr
    exact hl hl' source
  · obtain ⟨failure', rfl, hw, hr⟩ := ht ht'
    exact ⟨failure', _, c :: text, rfl, by simp, hw, by rw [hr]; rfl⟩

end

/-- The items of a text and of its transcription are the same if nothing departs, and only then. -/
theorem items_agree (h : T.Within text) (hls : T.closed = true → text = [] → lineStart = true) :
    T.Settled lineStart text := by
  induction lineStart, text using attempts_induction with
  | blank lineStart text ih =>
    exact .blank h (ih h.dropWhile_isBlank.2 fun hc hn => hn ▸ h.atLineStart_nil hc (hls hc))
  | ended lineStart => exact settled_ended fun hc => hls hc rfl
  | attempted lineStart c text hc ih =>
    by_cases hb : lineStart = true ∧ T.lineEnd ≠ ['\n'] ∧ ∃ rest, c :: text = '#' :: '\n' :: rest
    · obtain ⟨rfl, hl, rest, he⟩ := hb
      rw [he]
      exact settled_bare hl
    · have hb (hls : lineStart = true) (hl : T.lineEnd ≠ ['\n']) (rest : List Char)
          (he : c :: text = '#' :: '\n' :: rest) : False := hb ⟨hls, hl, rest, he⟩
      have hs := (attempt_suffix lineStart c text).trans (List.suffix_cons c text)
      obtain hf | hp := attempt_agree lineStart h (by rintro rfl; cases hc) hb
      · exact .cons hc hb hf (ih (h.suffix hs) fun hc hn => hn ▸ h.atLineStart_nil hc nofun)
      · exact settled_parted hc hp

end

end Fluent.Grammar.Transcription
