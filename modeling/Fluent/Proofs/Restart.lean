import Mathlib
import Fluent.Proofs.Pieces

/-!
# The restart behind a broken entry

Behind an entry that fails, reading starts anew: at the least place for an entry that lies neither
in front of the failure nor at the start of the broken entry. Nothing of what was read before tells
in what is found from there on.

* `nextEntry_least`, `resume_least`: reading goes on at the least place for an entry behind what it
  passes over;
* `parse_restart`: what is found in a text with a broken entry is what was found before, the error,
  and what is found in the rest of the text alone.
-/

namespace Fluent.Grammar

/-- An entry may start with `rest` behind `before`: a letter or a hyphen behind a line feed. -/
def OpensEntry (before rest : List Char) : Prop :=
  before.getLast? = some '\n' ∧ ∃ c, rest.head? = some c ∧ (c.isAlpha = true ∨ c = '-')

/-- An offset in bytes at which an entry may start. -/
def EntryPlace (source : String) (offset : Nat) : Prop :=
  ∃ before rest : String, source = before ++ rest ∧ before.utf8ByteSize = offset ∧
    OpensEntry before.toList rest.toList

/-- The places for an entry in a text from an offset on. -/
def entryPlaces (source : String) (earliest : Nat) : Set Nat :=
  {offset | earliest ≤ offset ∧ EntryPlace source offset}

/-! ## Sizes in bytes -/

/-- How many bytes a text has. -/
def byteSize (text : List Char) : Nat := (String.ofList text).utf8ByteSize

@[simp] theorem byteSize_toList (text : String) : byteSize text.toList = text.utf8ByteSize := by
  rw [byteSize, String.ofList_toList]

@[simp] theorem byteSize_append (front rest : List Char) :
    byteSize (front ++ rest) = byteSize front + byteSize rest := by
  simp [byteSize]

theorem byteSize_pos {text : List Char} (h : text ≠ []) : 0 < byteSize text := by
  rw [Nat.pos_iff_ne_zero, byteSize, Ne, String.utf8ByteSize_eq_zero_iff]
  intro he
  exact h (by rw [← String.toList_ofList (l := text), he]; rfl)

/-- Of two fronts of one text the one with no more bytes is a front of the other. -/
theorem prefix_iff_byteSize_le {front other rest rest' : List Char}
    (h : front ++ rest = other ++ rest') :
    front <+: other ↔ byteSize front ≤ byteSize other := by
  constructor
  · rintro ⟨more, rfl⟩
    simp
  · intro hle
    obtain ⟨more, rfl, -⟩ | ⟨more, rfl, -⟩ := List.append_eq_append_iff.mp h
    · exact List.prefix_append _ _
    · by_cases hmore : more = []
      · simp [hmore]
      · have := byteSize_pos hmore
        rw [byteSize_append] at hle
        omega

theorem locate_offset {front read : List Char} {failure : Failure} :
    (failure.locate (front ++ (read ++ failure.rest))).offset = byteSize (front ++ read) := by
  have hlength : (front ++ (read ++ failure.rest)).length - failure.rest.length =
      (front ++ read).length := by
    simp only [List.length_append]
    omega
  rw [Failure.locate, hlength, ← List.append_assoc, List.take_left]
  rfl

/-! ## Where reading goes on -/

/-- The next place for an entry is one, if there is any, and lies in front of all others. -/
theorem nextEntry_least (before text : List Char) :
    let next := nextEntry (before.getLast? == some '\n') text
    ∃ skipped, text = skipped ++ next ∧ (next = [] ∨ OpensEntry (before ++ skipped) next) ∧
      ∀ other rest, text = other ++ rest → OpensEntry (before ++ other) rest →
        skipped <+: other := by
  induction text generalizing before with
  | nil => exact ⟨[], rfl, .inl rfl, fun other _ _ _ => List.nil_prefix⟩
  | cons c text ih =>
    by_cases hc : (before.getLast? == some '\n' && (c.isAlpha || c == '-')) = true
    · rw [nextEntry, if_pos hc]
      simp only [Bool.and_eq_true, beq_iff_eq, Bool.or_eq_true] at hc
      refine ⟨[], rfl, .inr ?_, fun other _ _ _ => List.nil_prefix⟩
      rw [List.append_nil]
      exact ⟨hc.1, c, rfl, hc.2⟩
    · obtain ⟨skipped, htext, hfirst, hleast⟩ := ih (before ++ [c])
      have hline : ((before ++ [c]).getLast? == some '\n') = (c == '\n') := by simp
      rw [nextEntry, if_neg hc]
      rw [hline] at htext hfirst
      refine ⟨c :: skipped, ?_, ?_, ?_⟩
      · rw [List.cons_append, ← htext]
      · simpa using hfirst
      · intro other rest hother hopens
        cases other with
        | nil =>
          -- No entry starts at `c`, as the search went on from there.
          obtain ⟨hlast, d, hd, hletter⟩ := hopens
          rw [List.append_nil] at hlast
          rw [List.nil_append] at hother
          rw [← hother, List.head?_cons, Option.some_inj] at hd
          subst hd
          simp [hlast, hletter] at hc
        | cons d other =>
          rw [List.cons_append, List.cons.injEq] at hother
          obtain ⟨rfl, hother⟩ := hother
          have hp := hleast other rest hother (by simpa using hopens)
          simpa using hp

/-- Reading goes on behind the text that was passed over: up to the failure, or the first character
of the entry if it failed there. -/
theorem resume_eq {start stop : List Char} (hs : stop <:+ start) (more : start ≠ []) :
    ∃ passed text, start = passed ++ text ∧ passed ≠ [] ∧
      resume start stop = nextEntry (passed.getLast? == some '\n') text ∧
      (text = stop ∨ stop = start ∧ passed.length = 1) := by
  have hline (passed text : List Char) (hp : passed ≠ []) :
      atLineStart false (passed ++ text) text = (passed.getLast? == some '\n') := by
    rw [atLineStart_append]
    cases hl : passed.getLast? with
    | none => exact absurd (List.getLast?_eq_none_iff.mp hl) hp
    | some c => simp
  by_cases hlt : stop.length < start.length
  · obtain ⟨passed, rfl⟩ := hs
    have hp : passed ≠ [] := by
      rintro rfl
      simp at hlt
    refine ⟨passed, stop, rfl, hp, ?_, .inl rfl⟩
    rw [resume, if_pos hlt, hline passed stop hp]
  · obtain rfl : stop = start := hs.eq_of_length_le (Nat.not_lt.mp hlt)
    obtain ⟨c, text, rfl⟩ := List.exists_cons_of_ne_nil more
    refine ⟨[c], text, rfl, List.cons_ne_nil _ _, ?_, .inr ⟨rfl, rfl⟩⟩
    rw [resume, if_neg hlt]
    exact congrArg (nextEntry · text) (hline [c] text (List.cons_ne_nil _ _))

/-- A place lies neither in front of a failure nor at the start of its entry exactly if it lies
behind the text that was passed over. -/
theorem late_iff {front start read stop passed text other rest : List Char}
    (hread : start = read ++ stop) (hpassed : start = passed ++ text) (hp : passed ≠ [])
    (hstop : text = stop ∨ stop = start ∧ passed.length = 1) (hother : start = other ++ rest) :
    max (byteSize (front ++ read)) (byteSize front + 1) ≤ byteSize (front ++ other) ↔
      passed <+: other := by
  have hle := prefix_iff_byteSize_le (hpassed.symm.trans hother)
  have hpos := byteSize_pos hp
  simp only [byteSize_append, hle]
  obtain rfl | ⟨rfl, hone⟩ := hstop
  · obtain rfl : read = passed := List.append_cancel_right (hread.symm.trans hpassed)
    omega
  · obtain rfl : read = [] := by simpa using hread
    have hnil : byteSize [] = 0 := rfl
    constructor
    · intro h
      obtain ⟨c, rfl⟩ := List.length_eq_one_iff.mp hone
      cases other with
      | nil => omega
      | cons d other =>
        simp only [hother, List.cons_append, List.cons.injEq] at hpassed
        exact hle.mp (by simp [hpassed.1])
    · intro h
      omega

/-- Reading goes on at the first place for an entry that is late enough, or at the end. -/
theorem resume_least (front : List Char) {start read stop : List Char}
    (hread : start = read ++ stop)
    (more : start ≠ []) :
    let late (other : List Char) :=
      max (byteSize (front ++ read)) (byteSize front + 1) ≤ byteSize (front ++ other)
    ∃ skipped, start = skipped ++ resume start stop ∧ late skipped ∧
      (resume start stop = [] ∨ OpensEntry (front ++ skipped) (resume start stop)) ∧
      ∀ other rest, start = other ++ rest → late other → OpensEntry (front ++ other) rest →
        skipped <+: other := by
  obtain ⟨passed, text, hpassed, hp, hresume, hstop⟩ := resume_eq ⟨read, hread.symm⟩ more
  obtain ⟨skipped, htext, hopens, hleast⟩ := nextEntry_least (front ++ passed) text
  have hlast : (front ++ passed).getLast? = passed.getLast? := by
    rw [List.getLast?_append, Option.or_of_isSome (by simpa using hp)]
  rw [hlast, ← hresume] at htext hopens
  have hskipped : start = passed ++ skipped ++ resume start stop := by
    rw [List.append_assoc, ← htext, ← hpassed]
  refine ⟨passed ++ skipped, hskipped, ?_, ?_, ?_⟩
  · exact (late_iff hread hpassed hp hstop hskipped).mpr (List.prefix_append _ _)
  · rwa [← List.append_assoc]
  · intro other rest hother hlate hplace
    obtain ⟨other, rfl⟩ := (late_iff hread hpassed hp hstop hother).mp hlate
    rw [hpassed, List.append_assoc] at hother
    rw [← List.append_assoc] at hplace
    exact (List.prefix_append_right_inj passed).mpr
      (hleast other rest (List.append_cancel_left hother) hplace)

/-- Where an entry may start that is not before the start of a text, as a place in that text. -/
theorem EntryPlace.split {front start : String} {offset : Nat}
    (h : EntryPlace (front ++ start) offset) (hle : front.utf8ByteSize ≤ offset) :
    ∃ other rest, start.toList = other ++ rest ∧ offset = byteSize (front.toList ++ other) ∧
      OpensEntry (front.toList ++ other) rest := by
  obtain ⟨before, rest, hsplit, rfl, hopens⟩ := h
  have hlists := congrArg String.toList hsplit
  rw [String.toList_append, String.toList_append] at hlists
  obtain ⟨other, hbefore⟩ := (prefix_iff_byteSize_le hlists).mpr (by simpa using hle)
  rw [← hbefore, List.append_assoc] at hlists
  rw [← hbefore] at hopens
  exact ⟨other, rest.toList, List.append_cancel_left hlists, by rw [hbefore, byteSize_toList],
    hopens⟩

theorem OpensEntry.place {before rest : String} (h : OpensEntry before.toList rest.toList) :
    EntryPlace (before ++ rest) before.utf8ByteSize :=
  ⟨before, rest, rfl, rfl, h⟩

/-- Where reading goes on is the first place for an entry that is late enough, or the end. -/
theorem resume_place (front : String) {start : String} {read stop : List Char}
    (hread : start.toList = read ++ stop) (more : start ≠ "") :
    ∃ before next : String, front ++ start = before ++ next ∧
      resume start.toList stop = next.toList ∧
      (next = "" ∨ OpensEntry before.toList next.toList) ∧
      (let places := entryPlaces (front ++ start)
        (max (byteSize (front.toList ++ read)) (front.utf8ByteSize + 1));
        IsLeast places before.utf8ByteSize ∨ next = "" ∧ places = ∅) := by
  obtain ⟨skipped, hskipped, hlate, hopens, hleast⟩ :=
    resume_least front.toList hread (by simpa using more)
  generalize resume start.toList stop = next at *
  have hsplit : front ++ start =
      String.ofList (front.toList ++ skipped) ++ String.ofList next := by
    rw [← String.ofList_append, List.append_assoc, ← hskipped, ← String.toList_append,
      String.ofList_toList]
  refine ⟨_, _, hsplit, by simp, by simpa using hopens, ?_⟩
  -- Every place that is late enough has the passed text in front of it.
  have hbound (offset : Nat) (hp : offset ∈ entryPlaces (front ++ start)
      (max (byteSize (front.toList ++ read)) (front.utf8ByteSize + 1))) :
      ∃ more rest, next = more ++ rest ∧ offset = byteSize (front.toList ++ (skipped ++ more)) ∧
        OpensEntry (front.toList ++ (skipped ++ more)) rest := by
    obtain ⟨hlarge, hplace⟩ := hp
    obtain ⟨other, rest, hother, rfl, hother'⟩ := hplace.split (by omega)
    obtain ⟨more, rfl⟩ := hleast other rest hother (by simpa using hlarge) hother'
    rw [hskipped, List.append_assoc] at hother
    exact ⟨more, rest, List.append_cancel_left hother, rfl, hother'⟩
  by_cases hnext : next = []
  · refine .inr ⟨by simp [hnext], Set.eq_empty_of_forall_notMem fun offset hp => ?_⟩
    obtain ⟨more, rest, hmore, -, -, c, hc, -⟩ := hbound offset hp
    simp [hnext] at hmore
    simp [hmore] at hc
  · refine .inl ⟨⟨by simpa [byteSize] using hlate, ?_⟩, fun offset hp => ?_⟩
    · rw [hsplit]
      exact OpensEntry.place (by simpa using hopens.resolve_left hnext)
    · obtain ⟨more, rest, -, rfl, -⟩ := hbound offset hp
      rw [← List.append_assoc, byteSize_append]
      exact Nat.le_add_right _ _

/-! ## What is found behind a broken entry -/

/-- After an entry that failed, reading goes on where `resume` tells. -/
theorem attempt_of_error {lineStart : Bool} {start : List Char} {failure : Failure}
    (fails : entryOrComment lineStart start = .error failure) :
    attempt lineStart start = ([.failure failure], resume start failure.rest) := by
  rw [attempt, fails]

theorem OpensEntry.dropWhile_isBlank {before rest : List Char} (h : OpensEntry before rest) :
    rest.dropWhile Text.isBlank = rest := by
  obtain ⟨-, c, hc, hletter⟩ := h
  obtain ⟨text, rfl⟩ := List.head?_eq_some_iff.mp hc
  have hblank : Text.isBlank c = false := by
    simp only [Text.isBlank, Bool.or_eq_false_iff, beq_eq_false_iff_ne]
    refine ⟨⟨⟨?_, ?_⟩, ?_⟩, ?_⟩ <;> rintro rfl <;> simp at hletter
  simp [hblank]

/-- A broken entry is an attempt of its own, and the next one is made where reading goes on. -/
theorem Reached.restart {source start next : List Char} {found : List Item} {failure : Failure}
    (reached : Reached source found start) (more : start ≠ [])
    (fails : entryOrComment (atLineStart true source start) start = .error failure)
    (hnext : resume start failure.rest = next) (hblank : next.dropWhile Text.isBlank = next) :
    Reached source (found ++ [.failure failure]) next := by
  have h := Reached.next reached more
  rwa [attempt_of_error fails, hnext, hblank] at h

/-- What is found where an entry may start, or at the end, is what is found in the rest alone. -/
theorem Reached.items_restart {before next : String} {found : List Item}
    (reached : Reached (before ++ next).toList found next.toList)
    (hopens : next = "" ∨ OpensEntry before.toList next.toList) :
    (Resource.parse (before ++ next)).entries =
        (Resource.ofItems (before ++ next).toList found).entries.overlay
          (Resource.parse next).entries ∧
      (Resource.parse (before ++ next)).errors =
        (Resource.ofItems (before ++ next).toList found).errors ++
          (Resource.parse next).errors.map (.behind before) := by
  have hi := reached.items_eq
  obtain rfl | hopens := hopens
  · have hsource : Resource.parse (before ++ "") =
        Resource.ofItems (before ++ "").toList found := by
      rw [Resource.parse_eq, hi, String.toList_empty, items_nil, List.append_nil]
    rw [hsource, parse_empty, Table.overlay_empty, List.map_nil, List.append_nil]
    exact ⟨rfl, rfl⟩
  · have hb := endsLines_of_getLast? hopens.1
    rw [String.toList_append, atLineStart_of_endsLines hb, ← String.toList_append] at hi
    exact parse_of_items hi hb

/-- Behind a broken entry reading starts anew, and nothing of the entry is kept but its error. -/
theorem parse_restart {front start : String} {found : List Item} {failure : Failure}
    (reached : Reached (front ++ start).toList found start.toList) (more : start ≠ "")
    (fails : entryOrComment (atLineStart true (front ++ start).toList start.toList)
      start.toList = .error failure) :
    ∃ before next : String, front ++ start = before ++ next ∧
      Reached (front ++ start).toList (found ++ [.failure failure]) next.toList ∧
      (let places := entryPlaces (front ++ start)
        (max (failure.locate (front ++ start).toList).offset (front.utf8ByteSize + 1));
        IsLeast places before.utf8ByteSize ∨ next = "" ∧ places = ∅) ∧
      (Resource.parse (front ++ start)).entries =
        (Resource.ofItems (front ++ start).toList found).entries.overlay
          (Resource.parse next).entries ∧
      (Resource.parse (front ++ start)).errors =
        (Resource.ofItems (front ++ start).toList found).errors ++
          failure.locate (front ++ start).toList ::
            (Resource.parse next).errors.map (.behind before) := by
  obtain ⟨read, hread⟩ : failure.rest <:+ start.toList :=
    attempt_failure_suffix (by rw [attempt_of_error fails]; exact List.mem_singleton_self _)
  have hoffset : (failure.locate (front ++ start).toList).offset =
      byteSize (front.toList ++ read) := by
    rw [String.toList_append, ← hread, locate_offset]
  obtain ⟨before, next, hsplit, hnext, hopens, hplaces⟩ :=
    resume_place front hread.symm more
  have hrestart := reached.restart (by simpa using more) fails hnext <| by
    obtain rfl | hopens := hopens
    · rfl
    · exact hopens.dropWhile_isBlank
  rw [← hoffset] at hplaces
  refine ⟨before, next, hsplit, hrestart, hplaces, ?_⟩
  rw [hsplit] at hrestart ⊢
  obtain ⟨hentries, herrors⟩ := hrestart.items_restart hopens
  rw [hentries, herrors, Resource.ofItems_append_entries, Resource.ofItems_append_errors]
  constructor
  · rw [show (Resource.ofItems (before ++ next).toList [.failure failure]).entries = ∅ from rfl,
      Table.overlay_empty]
  · rw [List.append_assoc]
    rfl

/-- An entry without its equals sign, between two others: what is found in front of it, its error
and what is found in the rest. -/
theorem parse_restart_between : ∃ before next : String,
    "a = x\n" ++ "b y\nc = z\n" = before ++ next ∧
      (Resource.parse ("a = x\n" ++ "b y\nc = z\n")).entries =
        (Table.overlay ((∅ : Table Entry).insert "a" (.text "x"))
          (Resource.parse next).entries) ∧
      (Resource.parse ("a = x\n" ++ "b y\nc = z\n")).errors =
        ⟨.expectedToken '=', 8, 2, 3⟩ :: (Resource.parse next).errors.map (.behind before) := by
  have hattempt : attempt true "a = x\nb y\nc = z\n".toList =
      ([.entry "a" (.text "x")], "b y\nc = z\n".toList) := by cbv
  have reached : Reached ("a = x\n" ++ "b y\nc = z\n").toList [.entry "a" (.text "x")]
      "b y\nc = z\n".toList := by
    have h := Reached.next (@Reached.first "a = x\nb y\nc = z\n".toList) (by decide)
    rwa [show atLineStart true "a = x\nb y\nc = z\n".toList
      ("a = x\nb y\nc = z\n".toList.dropWhile Text.isBlank) = true by decide,
      show "a = x\nb y\nc = z\n".toList.dropWhile Text.isBlank =
        "a = x\nb y\nc = z\n".toList by decide, hattempt] at h
  have fails : entryOrComment true "b y\nc = z\n".toList =
      .error ⟨.expectedToken '=', "y\nc = z\n".toList⟩ := by cbv
  obtain ⟨before, next, hsplit, -, -, hentries, herrors⟩ :=
    parse_restart reached (by decide) fails
  exact ⟨before, next, hsplit, hentries, herrors⟩

end Fluent.Grammar
