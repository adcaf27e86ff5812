import Fluent.Grammar.Resource
import Fluent.Proofs.Placeable

/-!
# What the readers of entries do to a text

Equations for the readers of attributes, messages and whole resources.
-/

namespace Fluent.Grammar

open Fluent.Grammar.Parser Fluent.Text.Reader

/-- Reads an attribute, the point of which is next, and the blank lines after it. -/
def namedPattern : Parser (String × Pattern) := do
  advance
  let name ← identifier
  skipInlineBlank
  expect '='
  skipInlineBlank
  match ← pattern entryPlaceable with
  | none => fail .attributeWithoutValue
  | some value =>
    set (dropBlankLines (← get))
    return (name, value)

theorem attributeRound_apply (attributes : Table Pattern) (text : List Char) :
    attributeRound attributes text =
      let rest := text.dropWhile Text.isInlineBlank
      if text.head? = some ' ' then
        if rest.head? = some '.' then
          (do
            let read ← namedPattern
            return .again (attributes.insert read.1 read.2) : Parser _) rest
        else .ok (.done attributes, rest)
      else .ok (.done attributes, text) := by
  have hbody : (do
      let read ← namedPattern
      return .again (attributes.insert read.1 read.2) : Parser (Round (Table Pattern))) = (do
      advance
      let name ← identifier
      skipInlineBlank
      expect '='
      skipInlineBlank
      match ← pattern entryPlaceable with
      | none => fail .attributeWithoutValue
      | some value =>
        set (dropBlankLines (← get))
        return .again (attributes.insert name value)) := by
    simp only [namedPattern, bind_assoc]
    refine bind_congr fun _ => bind_congr fun name => bind_congr fun _ => bind_congr fun _ =>
      bind_congr fun _ => bind_congr fun value => ?_
    cases value <;> rfl
  rw [hbody, attributeRound, peek_bind_apply, choice_apply]
  split
  · rw [skipInlineBlank_bind_apply, peek_bind_apply, choice_apply]
    rfl
  · rfl

theorem attributes?_apply (text : List Char) :
    attributes? text =
      let rest := text.dropWhile Text.isInlineBlank
      if text.head? = some ' ' then
        if rest.head? = some '.' then
          (do return some (← iterate attributeRound ∅) : Parser _) text
        else .ok (none, rest)
      else .ok (none, text) := by
  rw [attributes?, peek_bind_apply, choice_apply]
  split
  · rw [get_bind_apply, skipInlineBlank_bind_apply, peek_bind_apply, choice_apply]
    rfl
  · rfl

/-- Reads the id of an entry and the equals sign behind it. -/
def messageHead : Parser String := do
  let id ← entryIdentifier
  skipInlineBlank
  expect '='
  skipInlineBlank
  return id

theorem messageHead_apply (text : List Char) :
    messageHead text = match entryIdentifier text with
      | .ok (id, rest) =>
        let rest := rest.dropWhile Text.isInlineBlank
        if rest.head? = some '=' then .ok (id, (rest.drop 1).dropWhile Text.isInlineBlank)
        else .error ⟨.expectedToken '=', rest⟩
      | .error failure => .error failure := by
  rw [messageHead, bind_apply]
  cases entryIdentifier text with
  | error => rfl
  | ok read =>
    obtain ⟨id, rest⟩ := read
    simp only [skipInlineBlank_bind_apply]
    by_cases he : (rest.dropWhile Text.isInlineBlank).head? = some '='
    · rw [bind_ok (by rw [expect_apply, if_pos he]), if_pos he]
      rfl
    · rw [bind_error (by rw [expect_apply, if_neg he]), if_neg he]

theorem entryIdentifier_length_lt {text rest : List Char} {id : String}
    (h : entryIdentifier text = .ok (id, rest)) : rest.length < text.length := by
  have hdrop (next : List Char) (hn : next.head?.any Char.isAlpha = true) :
      (next.dropWhile isIdentifierChar).length < next.length := by
    cases next with
    | nil => cases hn
    | cons c next =>
      have hc : isIdentifierChar c = true := by
        simp only [List.head?_cons, Option.any_some] at hn
        simp [isIdentifierChar, Char.isAlphanum, hn]
      rw [List.dropWhile_cons_of_pos hc, List.length_cons]
      exact Nat.lt_succ_of_le (List.dropWhile_suffix _).length_le
  by_cases hd : text.head? = some '-'
  · obtain ⟨text, rfl⟩ := List.head?_eq_some_iff.mp hd
    rw [entryIdentifier_hyphen] at h
    split at h
    · obtain ⟨-, rfl⟩ := Prod.mk.inj (Except.ok.inj h)
      exact (hdrop text ‹_›).trans (Nat.lt_succ_self _)
    · cases h
  · rw [entryIdentifier_apply hd, identifier_apply] at h
    split at h
    · obtain ⟨-, rfl⟩ := Prod.mk.inj (Except.ok.inj h)
      exact hdrop text ‹_›
    · cases h

theorem messageHead_length_lt {text rest : List Char} {id : String}
    (h : messageHead text = .ok (id, rest)) : rest.length < text.length := by
  rw [messageHead_apply] at h
  split at h
  · rename_i id' next hid
    simp only at h
    split at h
    · obtain ⟨-, rfl⟩ := Prod.mk.inj (Except.ok.inj h)
      refine Nat.lt_of_le_of_lt ?_ (entryIdentifier_length_lt hid)
      exact ((List.dropWhile_suffix _).trans ((List.drop_suffix _ _).trans
        (List.dropWhile_suffix _))).length_le
    · cases h
  · cases h

/-- Reads what follows the value of an entry. -/
def messageTail (id : String) (value : Option Pattern) : Parser (String × Entry) := do
  if EntryKind.ofId id = .term ∧ value.isNone then fail .termWithoutValue
  else
    match value, ← attributes? with
    | some (.text text), none => return (id, .text text)
    | none, none => fail .messageWithoutValue
    | value, attributes => return (id, .node value attributes)

/-- Whether an attribute starts on this line. -/
def StartsAttribute (text : List Char) : Prop :=
  text.head? = some ' ' ∧ (text.dropWhile Text.isInlineBlank).head? = some '.'

theorem messageTail_attributes {id : String} {value : Option Pattern} {text : List Char}
    (hv : EntryKind.ofId id = .term → value ≠ none) (h : StartsAttribute text) :
    messageTail id value text =
      (do return (id, .node value (some (← iterate attributeRound ∅))) : Parser _) text := by
  have ha : attributes? text = (do return some (← iterate attributeRound ∅) : Parser _) text := by
    rw [attributes?_apply]
    simp only [h.1, h.2, if_true]
  rw [messageTail, choice_apply, if_neg fun ht => hv ht.1 (Option.isNone_iff_eq_none.mp ht.2),
    bind_apply, ha, bind_apply, bind_apply]
  cases iterate attributeRound ∅ text with
  | error => rfl
  | ok read => cases value with
    | none => rfl
    | some value => cases value <;> rfl

/-- Reads what follows the equals sign of an entry. -/
def messageBody (id : String) : Parser (String × Entry) := do
  messageTail id (← pattern entryPlaceable)

theorem message_eq : message = messageHead >>= messageBody := by
  simp only [message, messageHead, bind_assoc, pure_bind]
  rfl

/-- What is found at the start of an entry or of a comment, and where reading goes on. -/
def attempt (lineStart : Bool) (start : List Char) : List Item × List Char :=
  match entryOrComment lineStart start with
  | .ok (none, rest) => ([], rest)
  | .ok (some (id, entry), rest) => ([.entry id entry], rest)
  | .error failure => ([.failure failure], resume start failure.rest)

theorem entryOrComment_apply (lineStart : Bool) (start : List Char) :
    entryOrComment lineStart start =
      if lineStart then
        if startsComment start then .ok (none, dropComment start)
        else (do return some (← message) : Parser _) start
      else .error ⟨.expectedEntryStart, start⟩ := by
  rw [entryOrComment, choice_apply]
  split
  · rw [get_bind_apply, choice_apply]
    rfl
  · rfl

theorem startsComment_cases {text : List Char} (h : startsComment text = true) :
    ∃ c rest, text = '#' :: c :: rest ∧ (c = ' ' ∨ c = '#' ∨ c = '\n') := by
  rw [startsComment.eq_def] at h
  split at h
  · exact ⟨_, _, rfl, by simpa [or_assoc] using h⟩
  · cases h

/-! ## Line starts -/

theorem atLineStart_append (lineStart : Bool) (front rest : List Char) :
    atLineStart lineStart (front ++ rest) rest = match front.getLast? with
      | none => lineStart
      | some c => c == '\n' := by
  have read : (front ++ rest).take ((front ++ rest).length - rest.length) = front := by
    rw [List.length_append, Nat.add_sub_cancel, List.take_left]
  cases last : front.getLast? <;> simp only [atLineStart, read, last]

/-- Where reading goes on that stops around a line end. -/
theorem resume_lineEnd {text next stop : List Char} (hs : '\n' :: next <:+ text)
    (h : stop = next ∨ stop = '\n' :: next) : resume text stop = nextEntry true next := by
  have hstart : atLineStart false text next = true := by
    obtain ⟨front, rfl⟩ := hs
    rw [List.append_cons, atLineStart_append, List.getLast?_concat]
    rfl
  have hlt : next.length < text.length := hs.length_le
  obtain rfl | rfl := h
  · rw [resume, if_pos hlt, hstart]
  · rw [resume]
    split
    · rw [nextEntry, if_neg (by simp)]
      rfl
    · have ht : '\n' :: next = text := hs.eq_of_length_le (Nat.not_lt.mp ‹_›)
      rw [← ht] at hstart ⊢
      rw [List.drop_one, List.tail_cons, hstart]

/-- Where reading goes on that stops behind a character of a line. -/
theorem resume_midLine {c : Char} (hc : c ≠ '\n') (front stop : List Char) :
    resume (front ++ c :: stop) stop = nextEntry false stop := by
  have hlt : stop.length < (front ++ c :: stop).length := by simp; omega
  rw [resume, if_pos hlt, List.append_cons, atLineStart_append, List.getLast?_concat]
  simp only [beq_false_of_ne hc]

theorem nextEntry_suffix (lineStart : Bool) (text : List Char) :
    nextEntry lineStart text <:+ text := by
  induction text generalizing lineStart with
  | nil => exact List.suffix_refl _
  | cons c rest ih =>
    rw [nextEntry]
    split
    · exact List.suffix_refl _
    · exact (ih _).trans (List.suffix_cons _ _)

/-- Reading goes on behind the first character of a failed entry. -/
theorem resume_suffix {c : Char} {text stop : List Char} (hs : stop <:+ c :: text) :
    resume (c :: text) stop <:+ text := by
  rw [resume]
  split
  · refine (nextEntry_suffix _ _).trans ?_
    obtain rfl | hs := List.suffix_cons_iff.mp hs
    · exact absurd ‹_› (Nat.lt_irrefl _)
    · exact hs
  · exact nextEntry_suffix _ _

theorem dropComment_suffix (text : List Char) : dropComment text <:+ text := by
  fun_induction dropComment text with
  | case1 rest ih => exact ih.trans ⟨['\n', '#', ' '], rfl⟩
  | case2 rest ih => exact ih.trans ⟨['\n', '#', '#'], rfl⟩
  | case3 rest => exact List.suffix_cons _ _
  | case4 c rest _ _ _ ih => exact ih.trans (List.suffix_cons _ _)
  | case5 => exact List.suffix_refl _

theorem dropComment_lineFeed_suffix (text : List Char) : dropComment ('\n' :: text) <:+ text := by
  rw [dropComment.eq_def]
  split
  · rename_i rest heq
    rw [(List.cons.inj heq).2]
    exact (dropComment_suffix rest).trans ⟨['#', ' '], rfl⟩
  · rename_i rest heq
    rw [(List.cons.inj heq).2]
    exact (dropComment_suffix rest).trans ⟨['#', '#'], rfl⟩
  · rename_i rest _ _ heq
    exact (List.cons.inj heq).2 ▸ List.suffix_refl _
  · rename_i c rest _ _ h heq
    exact absurd (List.cons.inj heq).1.symm h
  · rename_i heq
    cases heq

end Fluent.Grammar
