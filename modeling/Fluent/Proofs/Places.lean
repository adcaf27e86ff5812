import Fluent.Proofs.Restart

/-!
# The places of errors

An entry fails behind its first character, and behind it reading goes on no earlier than where it
failed, at the start of a line. Hence the next failure has its place behind that of the one before.

* `message_failure_suffix`: where an entry can fail;
* `items_apart`: the failures in a text, one behind the other;
* `Failure.locate_eq`: a place by the lines in front of it and the start of its own line.
-/

namespace Fluent.Grammar

open Fluent.Grammar.Parser Fluent.Text.Reader

variable {text : List Char} {failure : Failure}

/-! ## Where an entry fails -/

theorem entryIdentifier_failure {c : Char}
    (fails : entryIdentifier (c :: text) = .error failure) : failure.rest = text := by
  by_cases hyphen : c = '-'
  · subst hyphen
    rw [entryIdentifier_hyphen] at fails
    split at fails
    · cases fails
    · obtain rfl := Except.error.inj fails
      rfl
  · rw [entryIdentifier_apply (by simpa using hyphen), identifier_apply] at fails
    split at fails
    · cases fails
    · obtain rfl := Except.error.inj fails
      rfl

theorem messageHead_failure_lt {c : Char} (fails : messageHead (c :: text) = .error failure) :
    failure.rest.length < (c :: text).length := by
  rw [messageHead_apply] at fails
  cases read : entryIdentifier (c :: text) with
  | error failure' =>
    rw [read] at fails
    obtain rfl := Except.error.inj fails
    rw [entryIdentifier_failure read]
    exact Nat.lt_succ_self _
  | ok read' =>
    obtain ⟨id, rest⟩ := read'
    rw [read] at fails
    simp only at fails
    split at fails
    · cases fails
    · obtain rfl := Except.error.inj fails
      exact Nat.lt_of_le_of_lt (List.dropWhile_suffix _).length_le
        (entryIdentifier_length_lt read)

/-- An entry fails behind its first character. -/
theorem message_failure_suffix {c : Char} (fails : message (c :: text) = .error failure) :
    failure.rest <:+ text := by
  have ends := message_suffix (c :: text)
  rw [fails] at ends
  refine (List.suffix_cons_iff.mp ends).resolve_left fun all => ?_
  have same : failure.rest.length = (c :: text).length := congrArg List.length all
  rw [message_eq, bind_apply] at fails
  cases head : messageHead (c :: text) with
  | error failure' =>
    rw [head] at fails
    obtain rfl := Except.error.inj fails
    exact absurd same (messageHead_failure_lt head).ne
  | ok read =>
    obtain ⟨id, rest⟩ := read
    rw [head] at fails
    have behind := messageBody_suffix id rest
    rw [show messageBody id rest = _ from fails] at behind
    have passed := messageHead_length_lt head
    exact absurd same (Nat.lt_of_le_of_lt behind.length_le passed).ne

/-! ## One failure behind the other -/

/-- What fails in a text that starts with a line, fails behind its first character. -/
theorem items_failure_behind {c : Char} (found : .failure failure ∈ items true (c :: text)) :
    failure.rest <:+ text := by
  by_cases blank : Text.isBlank c = true
  · rw [items_dropWhile, List.dropWhile_cons_of_pos blank] at found
    exact (items_failure_suffix found).trans (List.dropWhile_suffix _)
  · rw [items_cons true (Bool.eq_false_iff.mpr blank), List.mem_append] at found
    obtain first | later := found
    · obtain ⟨ended, -⟩ | ⟨-, fails⟩ := attempt_failure_cases first
      · cases ended
      · exact message_failure_suffix fails
    · exact (items_failure_suffix later).trans (attempt_suffix true c text)

/-- Behind an entry that fails reading goes on at the start of a line. -/
theorem resume_atLineStart (lineStart : Bool) {start stop : List Char} (ends : stop <:+ start)
    (more : start ≠ []) (onward : resume start stop ≠ []) :
    atLineStart lineStart start (resume start stop) = true := by
  obtain ⟨read, parts⟩ := ends
  obtain ⟨skipped, split, -, opens, -⟩ := resume_least [] parts.symm more
  obtain ⟨last, -⟩ := opens.resolve_left onward
  rw [List.nil_append] at last
  have here := atLineStart_append lineStart skipped (resume start stop)
  rwa [← split, last] at here

/-- Reading goes on no earlier than where it failed. -/
theorem resume_suffix_stop {start stop : List Char} (hs : stop <:+ start) :
    resume start stop <:+ stop := by
  rw [resume]
  split
  · exact nextEntry_suffix _ _
  · obtain rfl : stop = start := hs.eq_of_length_le (Nat.not_lt.mp ‹_›)
    exact (nextEntry_suffix _ _).trans (List.drop_suffix _ _)

/-- What fails behind an entry that failed, fails behind the place of its failure. -/
theorem items_behind_failure {lineStart : Bool} {start : List Char} {earlier later : Failure}
    (ends : earlier.rest <:+ start) (more : start ≠ [])
    (found : .failure later ∈ items (atLineStart lineStart start (resume start earlier.rest))
      (resume start earlier.rest)) :
    later.rest <:+ earlier.rest ∧ later.rest.length < earlier.rest.length := by
  have onward := resume_suffix_stop ends
  cases next : resume start earlier.rest with
  | nil => simp [next] at found
  | cons c text =>
    rw [resume_atLineStart lineStart ends more (by simp [next]), next] at found
    have behind := items_failure_behind found
    rw [next] at onward
    refine ⟨(behind.trans (List.suffix_cons c text)).trans onward, ?_⟩
    exact Nat.lt_of_lt_of_le (Nat.lt_succ_of_le behind.length_le) onward.length_le

/-- The failures in a text lie one behind the other. -/
theorem items_apart (lineStart : Bool) (text : List Char) :
    (items lineStart text).Pairwise fun
      | .failure earlier, .failure later =>
        later.rest <:+ earlier.rest ∧ later.rest.length < earlier.rest.length
      | _, _ => True := by
  induction lineStart, text using attempts_induction with
  | blank lineStart text ih => rwa [items_dropWhile]
  | ended lineStart => simp
  | attempted lineStart c text head ih =>
    rw [items_cons lineStart head]
    have ends (failure : Failure) (found : .failure failure ∈ (attempt lineStart (c :: text)).1) :
        failure.rest <:+ c :: text := attempt_failure_suffix found
    revert ih ends
    rw [attempt]
    rcases entryOrComment lineStart (c :: text) with failure | ⟨_ | ⟨id, entry⟩, rest⟩ <;>
      intro ih ends
    · refine List.pairwise_cons.mpr ⟨fun item found => ?_, ih⟩
      cases item with
      | entry => trivial
      | failure later =>
        exact items_behind_failure (ends _ List.mem_cons_self) (List.cons_ne_nil c text) found
    · exact ih
    · exact List.pairwise_cons.mpr ⟨fun _ _ => trivial, ih⟩

/-! ## Places in a text -/

/-- A text is whole lines and the start of another one. -/
theorem exists_lines (front : List Char) :
    ∃ lines line, front = lines ++ line ∧ EndsLines lines ∧ '\n' ∉ line := by
  refine ⟨(front.reverse.dropWhile (· != '\n')).reverse,
    (front.reverse.takeWhile (· != '\n')).reverse, ?_, ?_, ?_⟩
  · rw [← List.reverse_append, List.takeWhile_append_dropWhile, List.reverse_reverse]
  · intro c last
    rw [List.getLast?_reverse] at last
    have lineFeed := List.head?_dropWhile_not (· != '\n') front.reverse
    rw [last] at lineFeed
    simpa using lineFeed
  · intro member
    simpa using List.mem_takeWhile_imp (List.mem_reverse.mp member)

/-- A failure is placed by the lines in front of it and the start of its own line. -/
theorem Failure.locate_eq {lines line : List Char} (whole : EndsLines lines) (part : '\n' ∉ line)
    (failure : Failure) :
    failure.locate (lines ++ line ++ failure.rest) =
      ⟨failure.fault, byteSize (lines ++ line), lines.count '\n' + 1, line.length + 1⟩ := by
  have read : (lines ++ line ++ failure.rest).take
      ((lines ++ line ++ failure.rest).length - failure.rest.length) = lines ++ line := by
    rw [List.length_append, Nat.add_sub_cancel, List.take_left]
  have onLine : (lines ++ line).reverse.takeWhile (· != '\n') = line.reverse := by
    rw [List.reverse_append, List.takeWhile_append_of_pos]
    · cases last : lines.reverse with
      | nil => simp
      | cons c more =>
        rw [whole c (by rw [List.getLast?_eq_head?_reverse, last, List.head?_cons])]
        simp
    · intro c member
      have other : c ≠ '\n' := fun same => part (same ▸ List.mem_reverse.mp member)
      simpa using other
  simp only [locate, read, onLine, List.count_append, List.count_eq_zero.mpr part,
    List.length_reverse, Nat.add_zero]
  rfl

/-- Every error of a text stands behind whole lines and the start of its own one. -/
theorem Resource.parse_error_placed {source : String} {error : ParseError}
    (reported : error ∈ (parse source).errors) : ∃ lines line rest : List Char,
    source.toList = lines ++ line ++ rest ∧ EndsLines lines ∧ '\n' ∉ line ∧
      error.offset = byteSize (lines ++ line) ∧ error.line = lines.count '\n' + 1 ∧
      error.column = line.length + 1 := by
  obtain ⟨failure, found, rfl⟩ := mem_parse_errors.mp reported
  obtain ⟨front, parts⟩ := items_failure_suffix found
  obtain ⟨lines, line, rfl, whole, part⟩ := exists_lines front
  have placed := failure.locate_eq whole part
  rw [parts] at placed
  exact ⟨lines, line, failure.rest, parts.symm, whole, part, by rw [placed], by rw [placed],
    by rw [placed]⟩

theorem locate_offset_lt {source : List Char} {earlier later : Failure}
    (ends : earlier.rest <:+ source) (behind : later.rest <:+ earlier.rest)
    (shorter : later.rest.length < earlier.rest.length) :
    (earlier.locate source).offset < (later.locate source).offset := by
  obtain ⟨read, parts⟩ := behind
  obtain ⟨front, rfl⟩ := ends
  have first : (earlier.locate (front ++ ([] ++ earlier.rest))).offset = byteSize (front ++ []) :=
    locate_offset
  have some : 0 < byteSize read := byteSize_pos (by rintro rfl; simp [← parts] at shorter)
  rw [List.nil_append, List.append_nil] at first
  rw [first, ← parts, locate_offset, byteSize_append]
  omega

/-- The errors of a text are listed in the order of their places, which are apart. -/
theorem Resource.parse_errors_apart (source : String) :
    (parse source).errors.Pairwise fun earlier later => earlier.offset < later.offset := by
  rw [parse_errors, List.pairwise_filterMap]
  refine (items_apart true source.toList).imp_of_mem ?_
  rintro (_ | earlier) (_ | later) found - apart _ first _ second <;> cases first <;> cases second
  exact locate_offset_lt (items_failure_suffix found) apart.1 apart.2

end Fluent.Grammar
