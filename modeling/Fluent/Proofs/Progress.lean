import Fluent.Proofs.Transcription.Entry

/-!
# Reading a resource goes on

Each attempt at an entry or a comment uses up text, so `items` has an equation without its test for
progress, and so has the list of the line starts at which an attempt is made.

* `message_suffix`: what an entry leaves, and where it fails, is an end of its text;
* `attempt_suffix`: an attempt leaves an end of the text behind its first character;
* `items_apply`: the items of a text, attempt by attempt.
-/

namespace Fluent.Grammar

open Fluent.Grammar.Parser Fluent.Text.Reader

/-- The transcription that leaves a text as it is. -/
def Transcription.asIs (text : List Char) : Transcription :=
  .same (decide (text.getLast? = some '\n'))

theorem Transcription.asIs_inside (text : List Char) : (Transcription.asIs text).Inside text where
  noReturn h := absurd rfl h
  ended _ := by simp [asIs, same]
  nonempty h := by
    rintro rfl
    simp [asIs, same] at h

theorem message_suffix (text : List Char) : stop (message text) <:+ text :=
  ((Transcription.message_agree (Transcription.asIs_inside text)).resolve_right
    fun h => h.1 rfl).suffix

theorem messageBody_suffix (id : String) (text : List Char) :
    stop (messageBody id text) <:+ text :=
  ((Transcription.messageBody_agree id (Transcription.asIs_inside text)).resolve_right
    fun h => h.1 rfl).suffix

theorem message_length_lt {text rest : List Char} {read : String × Entry}
    (h : message text = .ok (read, rest)) : rest.length < text.length := by
  rw [message_eq, bind_apply] at h
  cases hh : messageHead text with
  | error failure => rw [hh] at h; cases h
  | ok head =>
    obtain ⟨id, next⟩ := head
    rw [hh] at h
    have hs := messageBody_suffix id next
    rw [show messageBody id next = _ from h] at hs
    exact Nat.lt_of_le_of_lt hs.length_le (messageHead_length_lt hh)

/-- An attempt leaves an end of the text behind its first character. -/
theorem attempt_suffix (lineStart : Bool) (c : Char) (text : List Char) :
    (attempt lineStart (c :: text)).2 <:+ text := by
  rw [attempt, entryOrComment_apply]
  cases lineStart with
  | false => exact resume_suffix (List.suffix_refl _)
  | true =>
    rw [if_pos rfl]
    by_cases hc : startsComment (c :: text)
    · have hd : dropComment (c :: text) = dropComment text := by
        obtain ⟨d, rest, he, -⟩ := startsComment_cases hc
        rw [(List.cons.inj he).1]
        rfl
      rw [if_pos hc, hd]
      exact dropComment_suffix text
    · rw [if_neg hc, bind_apply]
      have hs := message_suffix (c :: text)
      cases hm : message (c :: text) with
      | error failure =>
        rw [hm] at hs
        exact resume_suffix hs
      | ok read =>
        obtain ⟨read, rest⟩ := read
        rw [hm] at hs
        obtain hs | hs := List.suffix_cons_iff.mp hs
        · exact absurd (message_length_lt hm) (hs ▸ Nat.lt_irrefl _)
        · exact hs

/-- What fails is an entry that is not at the start of a line, or a message. -/
theorem attempt_failure_cases {lineStart : Bool} {start : List Char} {failure : Failure}
    (h : .failure failure ∈ (attempt lineStart start).1) :
    lineStart = false ∧ failure = ⟨.expectedEntryStart, start⟩ ∨
      lineStart = true ∧ message start = .error failure := by
  rw [attempt, entryOrComment_apply] at h
  cases lineStart with
  | false => exact .inl ⟨rfl, by simpa using h⟩
  | true =>
    rw [if_pos rfl] at h
    split at h
    · simp at h
    · simp at h
    · rename_i failure' he
      obtain rfl : failure = failure' := by simpa using h
      split at he
      · cases he
      · rw [bind_apply] at he
        cases hr : message start with
        | ok read => rw [hr] at he; cases he
        | error failure =>
          rw [hr] at he
          cases he
          exact .inr ⟨rfl, rfl⟩

theorem attempt_failure_suffix {lineStart : Bool} {start : List Char} {failure : Failure}
    (h : .failure failure ∈ (attempt lineStart start).1) : failure.rest <:+ start := by
  obtain ⟨-, rfl⟩ | ⟨-, fails⟩ := attempt_failure_cases h
  · exact List.suffix_refl start
  · have hm := message_suffix start
    rwa [fails] at hm

@[simp] theorem items_nil (lineStart : Bool) : items lineStart [] = [] := by
  rw [items]
  rfl

theorem atLineStart_self (lineStart : Bool) (text : List Char) :
    atLineStart lineStart text text = lineStart := by
  rw [atLineStart, Nat.sub_self]
  rfl

theorem items_apply (lineStart : Bool) (text : List Char) :
    items lineStart text =
      let start := text.dropWhile Text.isBlank
      let lineStart := atLineStart lineStart text start
      let found := attempt lineStart start
      if start.isEmpty then []
      else found.1 ++ items (atLineStart lineStart start found.2) found.2 := by
  have hs := List.dropWhile_suffix (l := text) Text.isBlank
  have hi : items lineStart text =
      let start := text.dropWhile Text.isBlank
      let lineStart := atLineStart lineStart text start
      let found := attempt lineStart start
      if start.isEmpty then []
      else if found.2.length < text.length then
        found.1 ++ items (atLineStart lineStart start found.2) found.2
      else found.1 := by
    rw [items]
    rfl
  rw [hi]
  simp only
  cases hd : text.dropWhile Text.isBlank with
  | nil => rfl
  | cons c rest =>
    rw [hd] at hs
    have hlt := Nat.lt_of_le_of_lt
      (attempt_suffix (atLineStart lineStart text (c :: rest)) c rest).length_le hs.length_le
    rw [if_neg (by simp), if_pos hlt, if_neg (by simp)]

/-- The items of a text are those of its first attempt and those of what it leaves. -/
theorem items_cons (lineStart : Bool) {c : Char} (hc : Text.isBlank c = false) (text : List Char) :
    items lineStart (c :: text) = (attempt lineStart (c :: text)).1 ++
      items (atLineStart lineStart (c :: text) (attempt lineStart (c :: text)).2)
        (attempt lineStart (c :: text)).2 := by
  rw [items_apply, List.dropWhile_cons_of_neg (by simp [hc])]
  simp only [atLineStart_self]
  rfl

/-- Blank text in front of an attempt is passed over. -/
theorem items_dropWhile (lineStart : Bool) (text : List Char) :
    items lineStart text =
      items (atLineStart lineStart text (text.dropWhile Text.isBlank))
        (text.dropWhile Text.isBlank) := by
  rw [items_apply, items_apply (atLineStart lineStart text _)]
  simp only [List.dropWhile_idempotent, atLineStart_self]

/-- The line starts at which an entry or a comment is looked for. -/
def starts (lineStart : Bool) (text : List Char) : List (List Char) :=
  match _h : text.dropWhile Text.isBlank with
  | [] => []
  | c :: start =>
    let lineStart := atLineStart lineStart text (c :: start)
    let rest := (attempt lineStart (c :: start)).2
    let others := starts (atLineStart lineStart (c :: start) rest) rest
    if lineStart then (c :: start) :: others else others
termination_by text.length
decreasing_by
  have hs := _h ▸ List.dropWhile_suffix (l := text) Text.isBlank
  exact Nat.lt_of_le_of_lt (attempt_suffix _ c start).length_le hs.length_le

theorem starts_apply (lineStart : Bool) (text : List Char) :
    starts lineStart text =
      let start := text.dropWhile Text.isBlank
      let lineStart := atLineStart lineStart text start
      let rest := (attempt lineStart start).2
      if start.isEmpty then []
      else (if lineStart then [start] else []) ++
        starts (atLineStart lineStart start rest) rest := by
  rw [starts]
  split
  · rename_i hd
    simp [hd]
  · rename_i c start hd
    simp only [hd]
    split <;> simp

theorem starts_cons (lineStart : Bool) {c : Char} (hc : Text.isBlank c = false) (text : List Char) :
    starts lineStart (c :: text) = (if lineStart then [c :: text] else []) ++
      starts (atLineStart lineStart (c :: text) (attempt lineStart (c :: text)).2)
        (attempt lineStart (c :: text)).2 := by
  rw [starts_apply, List.dropWhile_cons_of_neg (by simp [hc])]
  simp only [atLineStart_self]
  rfl

theorem starts_dropWhile (lineStart : Bool) (text : List Char) :
    starts lineStart text =
      starts (atLineStart lineStart text (text.dropWhile Text.isBlank))
        (text.dropWhile Text.isBlank) := by
  rw [starts_apply, starts_apply (atLineStart lineStart text _)]
  simp only [List.dropWhile_idempotent, atLineStart_self]

/-- What reading a text to its end comes to follows from its attempts, one after the other. -/
theorem attempts_induction {P : Bool → List Char → Prop}
    (blank : ∀ lineStart text, P (atLineStart lineStart text (text.dropWhile Text.isBlank))
      (text.dropWhile Text.isBlank) → P lineStart text)
    (ended : ∀ lineStart, P lineStart [])
    (attempted : ∀ lineStart c text, Text.isBlank c = false →
      P (atLineStart lineStart (c :: text) (attempt lineStart (c :: text)).2)
        (attempt lineStart (c :: text)).2 → P lineStart (c :: text))
    (lineStart : Bool) (text : List Char) : P lineStart text := by
  induction hn : text.length using Nat.strongRecOn generalizing lineStart text with
  | ind n ih =>
    subst hn
    have hs := List.dropWhile_suffix (l := text) Text.isBlank
    have hc := List.head?_dropWhile_not Text.isBlank text
    refine blank _ _ ?_
    generalize text.dropWhile Text.isBlank = start at hs hc ⊢
    cases start with
    | nil => exact ended _
    | cons c start =>
      refine attempted _ c start hc (ih _ ?_ _ _ rfl)
      exact Nat.lt_of_le_of_lt (attempt_suffix _ c start).length_le hs.length_le

theorem items_failure_suffix {lineStart : Bool} {text : List Char} {failure : Failure}
    (h : .failure failure ∈ items lineStart text) : failure.rest <:+ text := by
  induction lineStart, text using attempts_induction with
  | blank lineStart text ih =>
    rw [items_dropWhile] at h
    exact (ih h).trans (List.dropWhile_suffix _)
  | ended => simp at h
  | attempted lineStart c text hc ih =>
    rw [items_cons lineStart hc, List.mem_append] at h
    obtain h | h := h
    · exact attempt_failure_suffix h
    · exact (ih h).trans ((attempt_suffix lineStart c text).trans (List.suffix_cons c text))

end Fluent.Grammar
