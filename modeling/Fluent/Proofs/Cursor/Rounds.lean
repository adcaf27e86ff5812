import Fluent.Proofs.Cursor.Resource

/-!
# Rounds over a resource

Reading a resource by its bytes goes round by round. Each round moves the cursor forward, and the
round at the end of the text is the last one. The errors come out in the order of their places, each
between two characters of the text.

* `Turn`: where reading stands between two rounds;
* `Turn.reached`: what has been read there, by the attempts of the grammar;
* `Turn.advances`, `Turn.ends`: what the next round does;
* `parse_places`: the rounds of a text and the places of its errors.
-/

namespace Fluent.Cursor

open Grammar (EndsLines Item Reached Resource attempt)

/-- Reading a text stands between two rounds at an offset, and has read so much of it. -/
inductive Turn (source : String) : Resource → Nat → Prop
  | first {offset} (skips : skipBlank source 0 = .ok ((), offset)) : Turn source ⟨∅, []⟩ offset
  | next {read further offset stop} (turn : Turn source read offset)
    (round : resourceRound read source offset = .ok (.again further, stop)) :
    Turn source further stop

variable {source : String} {read : Resource} {offset : Nat}

/-- Between two rounds an attempt at an entry is next, or the end. -/
theorem Turn.reached (turn : Turn source read offset) : ∃ found start,
    Reached source.toList found start ∧ read = .ofItems source.toList found ∧
      offset = place source start := by
  induction turn with
  | first skips =>
    have first := skipBlank_place (List.suffix_refl source.toList)
    rw [place_toList, skips] at first
    exact ⟨[], _, .first, rfl, congrArg Prod.snd (Except.ok.inj first)⟩
  | next turn round ih =>
    obtain ⟨found, start, reached, rfl, rfl⟩ := ih
    by_cases more : start = []
    · rw [more, place_nil, resourceRound_apply, if_neg (Nat.lt_irrefl _)] at round
      cases round
    · rw [resourceRound_place reached more] at round
      obtain ⟨again, stop⟩ := Prod.mk.inj (Except.ok.inj round)
      cases again
      exact ⟨_, _, reached.next more, rfl, stop.symm⟩

/-- In front of the end of the text the next round moves the cursor forward. -/
theorem Turn.advances (turn : Turn source read offset) (inside : offset < source.utf8ByteSize) :
    ∃ further stop, resourceRound read source offset = .ok (.again further, stop) ∧
      offset < stop ∧ stop ≤ source.utf8ByteSize := by
  obtain ⟨found, start, reached, rfl, rfl⟩ := turn.reached
  have more : start ≠ [] := by
    rintro rfl
    exact Nat.lt_irrefl _ inside
  obtain ⟨c, text, rfl⟩ := List.exists_cons_of_ne_nil more
  have left := Grammar.attempt_suffix (Grammar.atLineStart true source.toList (c :: text)) c text
  have shorter := ((List.dropWhile_suffix Text.isBlank).trans left).length_le
  exact ⟨_, _, resourceRound_place reached more,
    (place_lt_iff reached.suffix (reached.next more).suffix).mpr (Nat.lt_succ_of_le shorter),
    place_le source _⟩

/-- The round at the end of the text is the last one, and all of the text has been read. -/
theorem Turn.ends (turn : Turn source read offset) (all : offset = source.utf8ByteSize) :
    resourceRound read source offset = .ok (.done (Resource.parse source), offset) := by
  obtain ⟨found, start, reached, rfl, rfl⟩ := turn.reached
  have none : start = [] := by
    by_contra more
    have size := place_add_byteSize reached.suffix
    have some := Grammar.byteSize_pos more
    omega
  subst none
  have items := reached.items_eq
  rw [Grammar.items_nil, List.append_nil] at items
  rw [place_nil, resourceRound_apply, if_neg (Nat.lt_irrefl _), Resource.parse_eq, items]

/-- Between two rounds the cursor stands in the text or at its end. -/
theorem Turn.inside (turn : Turn source read offset) : offset ≤ source.utf8ByteSize := by
  obtain ⟨found, start, -, -, rfl⟩ := turn.reached
  exact place_le source start

/-- Each round in front of the end of a text moves the cursor forward, and the one at its end is the
last one, so reading a text comes to an end. Its errors point at places between two characters, one
behind the other; the line of an error counts the line feeds in front of its place, and the column
the characters in front of it on the last line. -/
theorem parse_places (source : String) :
    (∀ read offset, Turn source read offset → offset ≤ source.utf8ByteSize ∧
      (offset < source.utf8ByteSize → ∃ further stop,
        resourceRound read source offset = .ok (.again further, stop) ∧
          offset < stop ∧ stop ≤ source.utf8ByteSize) ∧
      (offset = source.utf8ByteSize →
        resourceRound read source offset = .ok (.done (Resource.parse source), offset))) ∧
    parse source 0 = .ok (Resource.parse source, source.utf8ByteSize) ∧
    ((Resource.parse source).errors.Pairwise fun earlier later =>
      earlier.span.start < later.span.start) ∧
    ∀ error ∈ (Resource.parse source).errors,
      error.span.stop = error.span.start ∧ error.span.start ≤ source.utf8ByteSize ∧
      IsBoundary source error.span.start ∧
      ∃ lines line rest : String, source = lines ++ line ++ rest ∧
        error.span.start = (lines ++ line).utf8ByteSize ∧
        EndsLines lines.toList ∧ '\n' ∉ line.toList ∧
        error.span.line = (lines ++ line).toList.count '\n' + 1 ∧
        error.span.column = line.length + 1 := by
  refine ⟨fun read offset turn => ⟨turn.inside, turn.advances, turn.ends⟩, parse_eq source,
    Resource.parse_errors_apart source, fun error found => ?_⟩
  obtain ⟨lines, line, rest, parts, whole, part, offset, onLine, column⟩ :=
    Resource.parse_error_placed found
  have here : error.span.start = place source rest := offset.trans (place_eq parts).symm
  refine ⟨rfl, here ▸ place_le source rest, here ▸ isBoundary_place ⟨_, parts.symm⟩,
    String.ofList lines, String.ofList line, String.ofList rest, ?_, ?_, ?_, ?_, ?_, ?_⟩
  · rw [← String.ofList_append, ← String.ofList_append, ← parts, String.ofList_toList]
  · rw [← String.ofList_append]
    exact offset
  · rwa [String.toList_ofList]
  · rwa [String.toList_ofList]
  · rw [← String.ofList_append, String.toList_ofList, List.count_append,
      List.count_eq_zero.mpr part]
    exact onLine
  · rw [String.length_ofList]
    exact column

end Fluent.Cursor
