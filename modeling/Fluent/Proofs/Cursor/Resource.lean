import Fluent.Proofs.Cursor.Entry
import Fluent.Proofs.Pieces

/-!
# Resources by their bytes

Reading a resource by its bytes comes to the resource, without a crash. Behind an entry that fails
the search for the next one may start inside a character, where it goes on as it does behind it: no
continuation byte ends a line or starts an entry.

* `nextEntry_codes`, `skipToEntryStart_place`: the search comes to the next entry;
* `resourceRound_place`: a round is an attempt at an entry;
* `parse_never_crashes`: what reading a text comes to, and what it would crash on.
-/

namespace Fluent.Cursor

open Grammar (Failure nextEntry resume atLineStart_append attempt Item Reached Resource byteSize
  byteSize_pos byteSize_append)
open Text.Reader (Round)

variable {source : String} {text rest : List Char}

/-! ## Line starts -/

/-- The byte in front of an end of the text is the last one of the text up to there. -/
theorem byteBefore_place {front : List Char} {byte : Char} (parts : source.toList = front ++ rest)
    (last : (codes front).getLast? = some byte) (offset : Nat) :
    byteBefore (place source rest) source offset = .ok (byte, offset) := by
  obtain ⟨others, split⟩ := List.getLast?_eq_some_iff.mp last
  have here : place source rest = others.length + 1 := by
    rw [place_eq parts, ← length_codes, split, List.length_append, List.length_singleton]
  have found : (bytes source)[others.length]? = some byte := by
    rw [bytes_eq, parts, codes_append, split, List.append_assoc, List.getElem?_append_right le_rfl,
      Nat.sub_self]
    rfl
  rw [here, byteBefore_succ, found]

theorem atLineStart_agrees (rest : List Char) :
    Agrees source rest rest atLineStart
      (.ok (Grammar.atLineStart true source.toList rest, rest)) := by
  refine .get fun inside ends => ⟨?_, ends⟩
  obtain ⟨front, parts⟩ := inside
  rw [← parts, atLineStart_append]
  obtain rfl | ⟨before, c, rfl⟩ := front.eq_nil_or_concat'
  · have here : place source rest = 0 := place_eq parts.symm
    rw [if_neg (not_not.mpr here)]
    rfl
  · have here : place source rest = byteSize (before ++ [c]) := place_eq parts.symm
    have some := byteSize_pos (List.concat_ne_nil c before)
    have same := getLast?_codes (x := '\n') (by decide) (before ++ [c])
    obtain ⟨byte, last⟩ := Option.isSome_iff_exists.mp
      (Option.isSome_iff_ne_none.mpr (mt List.getLast?_eq_none_iff.mp
        (mt codes_eq_nil.mp (List.concat_ne_nil c before))))
    rw [if_pos (by omega), bind_apply, byteBefore_place parts.symm last]
    rw [last] at same
    rw [List.getLast?_concat] at same ⊢
    change Except.ok (byte == '\n', _) = Except.ok (c == '\n', _)
    rw [show (byte == '\n') = (c == '\n') from same]

theorem entry_agrees (rest : List Char) :
    Agrees source rest rest entry
      (Grammar.entryOrComment (Grammar.atLineStart true source.toList rest) rest) := by
  rw [Grammar.entryOrComment_apply]
  refine .step_of (atLineStart_agrees rest) (.choice Iff.rfl (fun _ => ?_) fun _ => .fail _)
  refine .step_of (startsComment_agrees rest) (.choice Iff.rfl (fun _ => ?_) fun _ => ?_)
  · exact .step_of (skipComment_agrees rest) (.pure _)
  · exact (message_follows rest).bind fun read _ _ _ => .pure _

/-! ## The next entry -/

/-- Continuation bytes are passed over. -/
theorem nextEntry_continuations {front : List Char}
    (continues : ∀ byte ∈ front, isContinuation byte = true) (rest : List Char) :
    nextEntry false (front ++ rest) = nextEntry false rest := by
  induction front with
  | nil => rfl
  | cons byte front ih =>
    have large := isContinuation_large (continues byte (List.mem_cons_self ..))
    have noLineFeed : (byte == '\n') = false := beq_false_of_ne fun h => by
      subst h
      exact absurd large (by decide)
    rw [List.cons_append, nextEntry, if_neg (by simp), noLineFeed,
      ih fun byte member => continues byte (List.mem_cons_of_mem _ member)]

/-- A byte that an entry can start with. -/
theorem steady_entryStart : Steady fun byte => byte.isAlpha || byte == '-' :=
  steady_isAlpha.or (steady_beq (by decide))

theorem nextEntry_encode (c : Char) (text : List Char) :
    ∃ first others, encode c = first :: others ∧
      nextEntry (first == '\n') (others ++ codes text) = nextEntry (c == '\n') (codes text) := by
  have h := encoded c
  generalize encode c = code at h ⊢
  cases h with
  | plain => exact ⟨c, [], rfl, rfl⟩
  | @wide first others large continues wide =>
    refine ⟨first, others, rfl, ?_⟩
    have noLineFeed (byte : Char) (large : 128 ≤ byte.toNat) : (byte == '\n') = false :=
      beq_false_of_ne fun h => by
        subst h
        exact absurd large (by decide)
    rw [noLineFeed first (by omega), noLineFeed c wide, nextEntry_continuations continues]

/-- The next entry is found among the bytes where it is found among the characters. -/
theorem nextEntry_codes (lineStart : Bool) (text : List Char) :
    nextEntry lineStart (codes text) = codes (nextEntry lineStart text) := by
  induction text generalizing lineStart with
  | nil => rfl
  | cons c text ih =>
    obtain ⟨first, others, he, onward⟩ := nextEntry_encode c text
    have same : (first.isAlpha || first == '-') = (c.isAlpha || c == '-') :=
      steady_entryStart.of_mem_encode c first (by simp [he])
    rw [codes_cons, he, List.cons_append, nextEntry, nextEntry, same, onward, ih]
    split
    · rw [codes_cons, he, List.cons_append]
    · rfl

/-- An entry that does not start right here does not start on this line. -/
theorem nextEntry_of_not {lineStart : Bool} {text : List Char}
    (starts : ¬(lineStart = true ∧ text.head?.any (fun c => c.isAlpha || c == '-') = true)) :
    nextEntry lineStart text = nextEntry false text := by
  cases text with
  | nil => rfl
  | cons c text =>
    rw [List.head?_cons, Option.any_some, ← Bool.and_eq_true] at starts
    rw [nextEntry, nextEntry, if_neg starts, if_neg (by simp)]

theorem nextEntry_line {line : List Char} (lineFeedFree : '\n' ∉ line) (rest : List Char) :
    nextEntry false (line ++ rest) = nextEntry false rest := by
  induction line with
  | nil => rfl
  | cons c line ih =>
    obtain ⟨other, lineFeedFree⟩ := List.ne_and_not_mem_of_not_mem_cons lineFeedFree
    rw [List.cons_append, nextEntry, if_neg (by simp), beq_false_of_ne other.symm,
      ih lineFeedFree]

theorem entryStartRound_apply (offset : Nat) :
    entryStartRound () source offset =
      if (offset = 0 ∨ (bytes source)[offset - 1]? = some '\n') ∧
          (bytes source)[offset]?.any fun byte => byte.isAlpha || byte == '-' then
        .ok (.done (), offset)
      else match (((bytes source).drop offset).findIdx? (· == '\n')).map (offset + ·) with
        | some stop => .ok (.again (), stop + 1)
        | none => .ok (.done (), source.utf8ByteSize) := by
  change (if _ then _ else _ : Cursor _) source offset = _
  split
  · rfl
  · rw [bind_apply]
    change (match (((bytes source).drop offset).findIdx? (· == '\n')).map (offset + ·) with
      | some stop => (do moveTo (stop + 1); return .again ())
      | none => (do moveTo (← size); return .done ()) : Cursor (Round Unit)) source offset = _
    cases (((bytes source).drop offset).findIdx? (· == '\n')).map (offset + ·) <;> rfl

/-- A round of the search at an offset behind the first, whether it is a boundary or not. -/
theorem entryStartRound_behind {before text : List Char} (behind : before ≠ [])
    (parts : bytes source = before ++ text) :
    entryStartRound () source before.length =
      if before.getLast? = some '\n' ∧ text.head?.any (fun c => c.isAlpha || c == '-') then
        .ok (.done (), before.length)
      else match (text.findIdx? (· == '\n')).map (before.length + ·) with
        | some stop => .ok (.again (), stop + 1)
        | none => .ok (.done (), source.utf8ByteSize) := by
  have next : (bytes source)[before.length]? = text.head? := by
    rw [parts, List.getElem?_append_right le_rfl, Nat.sub_self, List.head?_eq_getElem?]
  have some := List.length_pos_iff.mpr behind
  have last : (bytes source)[before.length - 1]? = before.getLast? := by
    rw [parts, List.getElem?_append_left (by omega), List.getLast?_eq_getElem?]
  rw [entryStartRound_apply, next, last, parts, List.drop_left]
  simp only [Nat.ne_of_gt some, false_or]

/-- The search comes to the next entry. -/
theorem iterate_entryStartRound {before text : List Char} (behind : before ≠ [])
    (parts : bytes source = before ++ text) :
    iterate entryStartRound () source before.length = .ok ((), source.utf8ByteSize -
      (nextEntry (before.getLast? == some '\n') text).length) := by
  induction hn : text.length using Nat.strongRecOn generalizing before text with
  | ind n ih =>
    subst hn
    have size : source.utf8ByteSize = before.length + text.length := by
      rw [← length_bytes, parts, List.length_append]
    rw [iterate, entryStartRound_behind behind parts]
    by_cases starts : before.getLast? = some '\n' ∧
        text.head?.any (fun c => c.isAlpha || c == '-') = true
    · rw [if_pos starts]
      obtain ⟨lineStart, opens⟩ := starts
      cases text with
      | nil => cases opens
      | cons c text =>
        rw [List.head?_cons, Option.any_some] at opens
        rw [nextEntry, if_pos (by simp [lineStart, opens]), size, Nat.add_sub_cancel]
    · rw [if_neg starts, nextEntry_of_not (by simpa using starts)]
      by_cases lineFeed : '\n' ∈ text
      · obtain ⟨line, rest, rfl, lineFeedFree⟩ := List.eq_append_cons_of_mem lineFeed
        have found : (line ++ '\n' :: rest).findIdx? (· == '\n') = some line.length := by
          rw [List.findIdx?_append, findIdx?_eq_none_of_not_mem lineFeedFree]
          simp [List.findIdx?_cons]
        have onward : iterate entryStartRound () source (before ++ line ++ ['\n']).length = _ :=
          ih rest.length (by simp; omega) (by simp) (by simp [parts]) rfl
        have later : (before ++ line ++ ['\n']).length = before.length + line.length + 1 := by
          simp only [List.length_append, List.length_singleton]
        have inside : before.length < before.length + line.length + 1 ∧
            before.length + line.length + 1 ≤ source.utf8ByteSize := by
          rw [size, List.length_append, List.length_cons]
          omega
        rw [later, List.getLast?_concat] at onward
        rw [found, nextEntry_line lineFeedFree, nextEntry, if_neg (by simp)]
        simp only [Option.map_some]
        rw [if_pos inside, onward]
        rfl
      · have none := nextEntry_line lineFeed []
        rw [List.append_nil] at none
        rw [findIdx?_eq_none_of_not_mem lineFeed, none]
        rfl

theorem nextEntry_place {lineStart : Bool} {text : List Char} :
    source.utf8ByteSize - (nextEntry lineStart (codes text)).length =
      place source (nextEntry lineStart text) := by
  rw [nextEntry_codes, length_codes, place]

theorem iterate_entryStartRound_place {passed : List Char}
    (parts : source.toList = passed ++ text) (behind : passed ≠ []) :
    iterate entryStartRound () source (place source text) =
      .ok ((), place source (nextEntry (passed.getLast? == some '\n') text)) := by
  have all : bytes source = codes passed ++ codes text := by
    rw [bytes_eq, parts, codes_append]
  rw [place_eq parts, ← length_codes, iterate_entryStartRound (mt codes_eq_nil.mp behind) all,
    getLast?_codes (by decide), nextEntry_place]

/-- The search may start behind the first byte of a character. -/
theorem iterate_entryStartRound_inside {front : List Char} {c : Char}
    (parts : source.toList = front ++ c :: text) :
    iterate entryStartRound () source (place source (c :: text) + 1) =
      .ok ((), place source (nextEntry (c == '\n') text)) := by
  obtain ⟨first, others, code, onward⟩ := nextEntry_encode c text
  have all : bytes source = codes front ++ [first] ++ (others ++ codes text) := by
    rw [bytes_eq, parts, codes_append, codes_cons, code]
    simp
  have here : place source (c :: text) + 1 = (codes front ++ [first]).length := by
    rw [place_eq parts, ← length_codes, List.length_append, List.length_singleton]
  have last : ((codes front ++ [first]).getLast? == some '\n') = (first == '\n') := by
    rw [List.getLast?_concat]
    rfl
  rw [here, iterate_entryStartRound (List.concat_ne_nil _ _) all, last, onward, nextEntry_place]

/-- Where the search goes on behind an entry that fails. -/
theorem skipToEntryStart_apply (start offset : Nat) :
    skipToEntryStart start source offset =
      iterate entryStartRound () source (min (max offset (start + 1)) source.utf8ByteSize) := rfl

theorem skipToEntryStart_place {start stop : List Char} (inside : start <:+ source.toList)
    (more : start ≠ []) (ends : stop <:+ start) :
    skipToEntryStart (place source start) source (place source stop) =
      .ok ((), place source (resume start stop)) := by
  obtain ⟨passed, text, rfl, behind, resumes, passes⟩ := Grammar.resume_eq ends more
  have parts := inside
  obtain ⟨front, parts⟩ := parts
  have size := place_add_byteSize inside
  have taken := byteSize_pos behind
  rw [byteSize_append] at size
  rw [skipToEntryStart_apply, resumes]
  obtain rfl | ⟨rfl, one⟩ := passes
  · have there := place_append passed inside
    have from_stop : min (max (place source text) (place source (passed ++ text) + 1))
        source.utf8ByteSize = place source text := by
      omega
    rw [from_stop, iterate_entryStartRound_place (by rw [← parts, List.append_assoc])
      (List.append_ne_nil_of_right_ne_nil front behind), List.getLast?_append,
      Option.or_of_isSome (by simpa using behind)]
  · obtain ⟨c, rfl⟩ := List.length_eq_one_iff.mp one
    have behind_first : min (max (place source ([c] ++ text)) (place source ([c] ++ text) + 1))
        source.utf8ByteSize = place source ([c] ++ text) + 1 := by
      omega
    rw [behind_first]
    exact iterate_entryStartRound_inside parts.symm

/-! ## Resources -/

theorem recover_apply {α : Type} (reading : Cursor α) (handle : Grammar.ParseError → Cursor α)
    (text : String) (offset : Nat) :
    recover reading handle text offset = match reading text offset with
      | .error (.failed error stop) => handle error text stop
      | result => result := rfl

/-- What is found at an entry, and the error if it fails. -/
def recovered (source : String) (start : List Char) :
    Except Failure (Option (String × Entry) × List Char) →
      (Option (String × Entry) ⊕ Grammar.ParseError) × List Char
  | .ok (read, rest) => (.inl read, rest)
  | .error failure => (.inr (failure.locate source.toList), resume start failure.rest)

theorem recover_entry {start : List Char} (inside : start <:+ source.toList) (more : start ≠ []) :
    recover (Sum.inl <$> entry) (fun error => do
        skipToEntryStart (place source start)
        return .inr error) source (place source start) =
      .ok ((recovered source start (Grammar.entryOrComment
        (Grammar.atLineStart true source.toList start) start)).map id (place source)) := by
  obtain ⟨run, ends⟩ := entry_agrees start inside (List.suffix_refl start)
  rw [recover_apply, map_eq_pure_bind, bind_apply, run]
  cases found : Grammar.entryOrComment (Grammar.atLineStart true source.toList start) start with
  | ok => rfl
  | error failure =>
    have ends : failure.rest <:+ start := by rwa [found] at ends
    simp only [located]
    rw [bind_apply, skipToEntryStart_place inside more ends]
    rfl

theorem resourceRound_apply (read : Resource) (offset : Nat) :
    resourceRound read source offset =
      if offset < source.utf8ByteSize then
        (do
          let found ← recover (Sum.inl <$> entry) fun error => do
            skipToEntryStart offset
            return .inr error
          skipBlank
          return .again (addFound read found) : Cursor (Round Resource)) source offset
      else .ok (.done read, offset) := by
  change (if _ then _ else _ : Cursor _) source offset = _
  split <;> rfl

/-- The next items of a resource. -/
theorem addFound_ofItems (found : List Item) (start : List Char) :
    addFound (.ofItems source.toList found) (recovered source start (Grammar.entryOrComment
        (Grammar.atLineStart true source.toList start) start)).1 =
      .ofItems source.toList
        (found ++ (attempt (Grammar.atLineStart true source.toList start) start).1) := by
  rw [attempt]
  rcases Grammar.entryOrComment (Grammar.atLineStart true source.toList start) start with
    failure | ⟨_ | ⟨id, entry⟩, rest⟩
  · simp [recovered, addFound, Resource.ofItems]
  · simp [recovered, addFound]
  · simp [recovered, addFound, Resource.ofItems]

theorem recovered_rest (start : List Char) :
    (recovered source start (Grammar.entryOrComment
        (Grammar.atLineStart true source.toList start) start)).2 =
      (attempt (Grammar.atLineStart true source.toList start) start).2 := by
  rw [attempt]
  rcases Grammar.entryOrComment (Grammar.atLineStart true source.toList start) start with
    failure | ⟨_ | ⟨id, entry⟩, rest⟩ <;> rfl

theorem skipBlank_place (inside : rest <:+ source.toList) :
    skipBlank source (place source rest) =
      .ok ((), place source (rest.dropWhile Text.isBlank)) :=
  (Agrees.last (.skipBlank (.pure ())) inside (List.suffix_refl rest)).1

/-- One round is one attempt at an entry and the blank text behind it. -/
theorem resourceRound_place {found : List Item} {start : List Char}
    (reached : Reached source.toList found start) (more : start ≠ []) :
    resourceRound (.ofItems source.toList found) source (place source start) =
      .ok (.again (.ofItems source.toList
          (found ++ (attempt (Grammar.atLineStart true source.toList start) start).1)),
        place source ((attempt (Grammar.atLineStart true source.toList start) start).2.dropWhile
          Text.isBlank)) := by
  have inside := reached.suffix
  have ends := (Reached.attempt_rest_suffix (Grammar.atLineStart true source.toList start)
    more).trans inside
  have size := place_add_byteSize inside
  have some := byteSize_pos more
  rw [resourceRound_apply, if_pos (by omega), bind_apply, recover_entry inside more]
  simp only [Prod.map, id]
  rw [bind_apply, recovered_rest, skipBlank_place ends, addFound_ofItems]
  rfl

theorem iterate_resourceRound {found : List Item} {start : List Char}
    (reached : Reached source.toList found start) :
    iterate resourceRound (.ofItems source.toList found) source (place source start) =
      .ok (Resource.parse source, source.utf8ByteSize) := by
  induction hn : start.length using Nat.strongRecOn generalizing found start with
  | ind n ih =>
    subst hn
    have all := reached.items_eq
    rw [iterate]
    cases start with
    | nil =>
      rw [Grammar.items_nil, List.append_nil] at all
      rw [place_nil, resourceRound_apply, if_neg (Nat.lt_irrefl _), Resource.parse_eq, all]
    | cons c text =>
      have onward := reached.next (List.cons_ne_nil c text)
      have shorter := Nat.lt_succ_of_le ((List.dropWhile_suffix Text.isBlank).trans
        (Grammar.attempt_suffix (Grammar.atLineStart true source.toList (c :: text)) c
          text)).length_le
      have later := (place_lt_iff reached.suffix onward.suffix).mpr shorter
      rw [resourceRound_place reached (List.cons_ne_nil c text)]
      simp only [if_pos (And.intro later (place_le source _))]
      exact ih _ shorter onward rfl

/-- Reading a text by its bytes comes to its resource, at the end of the text. -/
theorem parse_eq (source : String) :
    parse source 0 = .ok (Resource.parse source, source.utf8ByteSize) := by
  have first := skipBlank_place (List.suffix_refl source.toList)
  rw [place_toList] at first
  rw [parse, bind_apply, first]
  exact iterate_resourceRound .first

/-- Reading a text by its bytes never crashes. Hence the parts of the text that it takes lie in the
text and between characters, and the bytes that it takes lie in the text: any others are a crash. -/
theorem parse_never_crashes (source : String) :
    (∀ crash, parse source 0 ≠ .error (.crashed crash)) ∧
      parse source 0 = .ok (Resource.parse source, source.utf8ByteSize) ∧
      ∀ start stop offset,
        ((∃ crash, slice start stop source offset = .error (.crashed crash)) ↔
          ¬(start ≤ stop ∧ stop ≤ source.utf8ByteSize ∧ IsBoundary source start ∧
            IsBoundary source stop)) ∧
        ((∃ crash, byteSlice start stop source offset = .error (.crashed crash)) ↔
          ¬(start ≤ stop ∧ stop ≤ source.utf8ByteSize)) ∧
        ((∃ crash, byteBefore start source offset = .error (.crashed crash)) ↔
          ¬(0 < start ∧ start ≤ source.utf8ByteSize)) := by
  refine ⟨fun crash crashed => ?_, parse_eq source, fun start stop offset =>
    ⟨slice_crashes_iff, byteSlice_crashes_iff, byteBefore_crashes_iff⟩⟩
  rw [parse_eq] at crashed
  cases crashed

end Fluent.Cursor
