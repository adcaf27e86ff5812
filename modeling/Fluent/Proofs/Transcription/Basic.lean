import Fluent.Grammar.Resource
import Fluent.Proofs.Token

/-!
# Transcriptions

A transcription writes a text again with other line ends and with more text after it. A parser reads
a text and its transcription alike: it finds the same and stops at corresponding places, unless the
difference shows.

* `Inside`, `Within`: the texts that a transcription is meant for;
* `Inside.takeWhile_apply`, `Within.dropWhile_isBlank`, `Inside.head?_apply`: what is next in a
  text is next in its transcription;
* `Agree`: what two readings, of a text and of its transcription, have in common;
* `Agree.bind`, `Agree.iterate`: readings that agree may be put together.
-/

namespace Fluent.Grammar

open Fluent.Grammar.Parser Fluent.Text.Reader

/-- The fault without its particulars. -/
def Fault.kind : Fault → Fault
  | .expectedToken _ => .expectedToken ' '
  | .unknownLiteral _ => .unknownLiteral ""
  | .invalidUnicodeEscape _ => .invalidUnicodeEscape ""
  | .unknownEscape _ => .unknownEscape ""
  | fault => fault

/-- Whether the fault is that a pattern is missing. -/
def Fault.isMissingValue : Fault → Bool
  | .termWithoutValue | .messageWithoutValue | .attributeWithoutValue | .variantWithoutValue => true
  | _ => false

theorem Fault.isMissingValue_kind (fault : Fault) :
    fault.kind.isMissingValue = fault.isMissingValue := by
  cases fault <;> rfl

/-- A text that starts with an id and an equals sign. -/
def StartsEntry (text : List Char) : Prop :=
  ∃ id rest, entryIdentifier text = .ok (id, rest) ∧
    (rest.dropWhile Text.isInlineBlank).head? = some '='

/-- What starts an entry starts with a letter, or with a hyphen and a letter. -/
theorem StartsEntry.cases {text : List Char} (h : StartsEntry text) :
    ∃ c rest, text = c :: rest ∧ (c.isAlpha ∨ c = '-' ∧ rest.head?.any Char.isAlpha) := by
  obtain ⟨id, after, hid, -⟩ := h
  cases text with
  | nil =>
    rw [entryIdentifier_apply (by simp), identifier_apply] at hid
    simp at hid
  | cons c rest =>
    refine ⟨c, rest, rfl, ?_⟩
    by_cases hc : c = '-'
    · subst hc
      rw [entryIdentifier_hyphen] at hid
      split at hid
      · exact .inr ⟨rfl, ‹_›⟩
      · cases hid
    · rw [entryIdentifier_apply (by simpa using hc), identifier_apply] at hid
      split at hid
      · exact .inl (by simpa using ‹_›)
      · cases hid

theorem StartsEntry.ne_nil {text : List Char} (h : StartsEntry text) : text ≠ [] := by
  obtain ⟨c, rest, rfl, -⟩ := h.cases
  simp

/-- How a text is written again: what stands for each line feed, and what follows the text. A text
is `closed` that ends with a line end; only an entry follows it, and nothing follows one that is
not. -/
structure Transcription where
  lineEnd : List Char
  tail : List Char
  closed : Bool
  lineEnd_cases : lineEnd = ['\n'] ∨ lineEnd = ['\r', '\n'] ∧ tail = []
  tail_cases : tail = [] ∨ StartsEntry tail ∧ closed = true

namespace Transcription

/-- The text is left as it is. -/
def same (closed : Bool) : Transcription := ⟨['\n'], [], closed, .inl rfl, .inl rfl⟩

/-- The text is left as it is, and an entry follows it. -/
def followedBy (tail : List Char) (h : StartsEntry tail) : Transcription :=
  ⟨['\n'], tail, true, .inl rfl, .inr ⟨h, rfl⟩⟩

/-- Line feeds become carriage returns with line feeds. -/
def crlf (closed : Bool) : Transcription :=
  ⟨['\r', '\n'], [], closed, .inr ⟨rfl, rfl⟩, .inl rfl⟩

/-- The text written again. -/
def apply (T : Transcription) (text : List Char) : List Char :=
  text.flatMap (fun c => if c = '\n' then T.lineEnd else [c]) ++ T.tail

/-- A text that may be transcribed: it holds no carriage return of its own where they are added, and
it is closed or not as told. -/
structure Within (T : Transcription) (text : List Char) : Prop where
  noReturn : T.lineEnd ≠ ['\n'] → '\r' ∉ text
  ended : text ≠ [] → (text.getLast? = some '\n' ↔ T.closed = true)

/-- As `Within`, with a line end still to come if the text is closed. -/
structure Inside (T : Transcription) (text : List Char) : Prop extends T.Within text where
  nonempty : T.closed = true → text ≠ []

/-- Where two readings of `text` stop that fail alike: at corresponding places, or the second one
between the two characters of a line end, which the first one stands in front of or behind. -/
def Stops (T : Transcription) (text rest rest' : List Char) : Prop :=
  rest' = T.apply rest ∨
    T.lineEnd ≠ ['\n'] ∧ ∃ next, '\n' :: next <:+ text ∧ (rest = next ∨ rest = '\n' :: next) ∧
      rest' = '\n' :: T.apply next

/-- Two failures that tell the same. -/
structure Alike (T : Transcription) (text : List Char) (failure failure' : Failure) : Prop where
  kind : failure.fault.kind = failure'.fault.kind
  stops : T.Stops text failure.rest failure'.rest
  missing : failure.fault.isMissingValue → failure'.rest = T.apply failure.rest

/-- A failure of the first of two readings that the second one need not share: it misses an argument
at the end of the text, where the second one can take the start of the tail for it; or it misses a
value in front of a line end, where the second one finds a carriage return. -/
def Departs (T : Transcription) (failure : Failure) : Prop :=
  (T.tail ≠ [] ∧ failure = ⟨.expectedLiteral, []⟩) ∨
  (T.lineEnd ≠ ['\n'] ∧ failure.fault.isMissingValue ∧ (failure.rest ≠ [] ∨ T.closed = true))

/-- Where a reading stops that has taken the start of the tail for an argument: after its id, or in
front of the equals sign. -/
def Swallowed (T : Transcription) (rest : List Char) : Prop :=
  ∃ id after, entryIdentifier T.tail = .ok (id, after) ∧
    (rest = after ∨ rest = after.dropWhile Text.isInlineBlank)

/-- What the second reading can come to when the first one has failed. -/
def Alone {α : Type} (T : Transcription) (text : List Char) (post : α → List Char → Prop) :
    Except Failure (α × List Char) → Prop
  | .ok (a, rest') => T.lineEnd ≠ ['\n'] ∧
      ∃ rest, rest <:+ text ∧ post a rest ∧ rest' = T.apply rest
  | .error failure => (T.tail ≠ [] → T.Swallowed failure.rest) ∧
      (T.lineEnd ≠ ['\n'] → ¬T.Departs failure)

/-- What is common to the readings of `text` and of its transcription: both find the same and leave
corresponding rests, of which `post` holds; both fail alike; or the first one departs. -/
inductive Agree {α : Type} (T : Transcription) (text : List Char) (post : α → List Char → Prop) :
    Except Failure (α × List Char) → Except Failure (α × List Char) → Prop
  | read {a rest} : rest <:+ text → post a rest →
      Agree T text post (.ok (a, rest)) (.ok (a, T.apply rest))
  | stopped {failure failure'} : failure.rest <:+ text → T.Alike text failure failure' →
      ¬T.Departs failure → Agree T text post (.error failure) (.error failure')
  | parted {failure other} : failure.rest <:+ text → T.Departs failure → T.Alone text post other →
      Agree T text post (.error failure) other

/-! ## Texts written again -/

section

variable {T : Transcription} {text rest : List Char} {c : Char} {p : Char → Bool}

@[simp] theorem apply_nil (T : Transcription) : T.apply [] = T.tail := rfl

theorem apply_cons (hc : c ≠ '\n') : T.apply (c :: rest) = c :: T.apply rest := by
  simp [apply, hc]

theorem apply_lineFeed : T.apply ('\n' :: rest) = T.lineEnd ++ T.apply rest := by
  simp [apply]

/-- A character that neither belongs to a line end nor starts an entry. -/
def IsMark (c : Char) : Prop := c ≠ '\n' ∧ c ≠ '\r' ∧ c ≠ '-' ∧ c.isAlpha = false

theorem tail_head (hc : T.tail.head? = some c) : c.isAlpha ∨ c = '-' := by
  obtain h | h := T.tail_cases
  · simp [h] at hc
  · obtain ⟨d, rest, hd, h⟩ := h.1.cases
    rw [hd, List.head?_cons, Option.some_inj] at hc
    subst hc
    exact h.imp_right And.left

theorem tail_dropWhile (hp : ∀ c, c.isAlpha ∨ c = '-' → p c = false) :
    T.tail.dropWhile p = T.tail := by
  cases ht : T.tail with
  | nil => rfl
  | cons c rest =>
    rw [List.dropWhile_cons_of_neg]
    simpa using hp c (T.tail_head (by rw [ht, List.head?_cons]))

theorem Within.suffix (h : T.Within text) (hs : rest <:+ text) : T.Within rest where
  noReturn hl hr := h.noReturn hl (hs.mem hr)
  ended hn := by
    obtain ⟨front, rfl⟩ := hs
    have last := h.ended (by simp [hn])
    rwa [List.getLast?_append, Option.or_of_isSome (by simpa using hn)] at last

theorem Within.inside (h : T.Within text) (hn : text ≠ []) : T.Inside text :=
  ⟨h, fun _ => hn⟩

theorem Within.next (h : T.Within (c :: rest)) : T.Within rest :=
  h.suffix (List.suffix_cons c rest)

/-- A character other than a line feed is not the last one of a closed text. -/
theorem Inside.next (h : T.Inside (c :: rest)) (hc : c ≠ '\n') : T.Inside rest where
  toWithin := h.toWithin.next
  nonempty ht hn := by
    have := (h.ended (by simp)).mpr ht
    subst hn
    simp [hc] at this

theorem Inside.ne_return (h : T.Inside (c :: rest)) (hl : T.lineEnd ≠ ['\n']) : c ≠ '\r' := by
  rintro rfl
  exact h.noReturn hl (by simp)

/-- Nothing follows an end inside a text, which is not closed. -/
theorem Inside.nil (h : T.Inside []) : T.closed = false ∧ T.tail = [] := by
  have hc : T.closed = false := Bool.eq_false_iff.mpr fun hc => h.nonempty hc rfl
  exact ⟨hc, T.tail_cases.resolve_right fun ht => by simp [hc] at ht⟩

/-- At the end of a text, the start of what follows can be taken for a part of it. -/
theorem swallows_cases (T : Transcription) (text : List Char) :
    (text = [] → T.tail = []) ∨ text = [] ∧ StartsEntry T.tail := by
  obtain ht | ht := T.tail_cases
  · exact .inl fun _ => ht
  · by_cases hn : text = []
    · exact .inr ⟨hn, ht.1⟩
    · exact .inl fun h => absurd h hn

/-- A text is at its end, at a line end or at a character of a line. -/
theorem Inside.cases (h : T.Inside text) :
    (text = [] ∧ T.tail = []) ∨ (∃ rest, text = '\n' :: rest ∧ T.Within rest) ∨
      ∃ c rest, text = c :: rest ∧ c ≠ '\n' ∧ T.Inside rest := by
  cases text with
  | nil => exact .inl ⟨rfl, h.nil.2⟩
  | cons c rest =>
    by_cases hc : c = '\n'
    · exact .inr (.inl ⟨rest, by rw [hc], h.toWithin.next⟩)
    · exact .inr (.inr ⟨c, rest, rfl, hc, h.next hc⟩)

/-- The transcription of a line end starts with a line feed or a carriage return. -/
theorem apply_lineFeed_cases (T : Transcription) (rest : List Char) :
    T.apply ('\n' :: rest) = '\n' :: T.apply rest ∨
      T.lineEnd ≠ ['\n'] ∧ T.apply ('\n' :: rest) = '\r' :: '\n' :: T.apply rest := by
  obtain h | ⟨h, -⟩ := T.lineEnd_cases
  · exact .inl (by rw [apply_lineFeed, h]; rfl)
  · exact .inr (by rw [apply_lineFeed, h]; simp)

/-- The same characters of a line are read from the transcription. -/
theorem Inside.takeWhile_apply (h : T.Inside text) (hn : p '\n' = false)
    (hr : p '\r' = false) :
    (T.apply text).takeWhile p = text.takeWhile p ∧
      (T.apply text).dropWhile p = T.apply (text.dropWhile p) ∧ T.Inside (text.dropWhile p) := by
  induction text with
  | nil =>
    simp [h.nil.2, h]
  | cons c rest ih =>
    by_cases hc : c = '\n'
    · subst hc
      obtain he | ⟨-, he⟩ := T.apply_lineFeed_cases rest <;>
        simp [he, hn, hr, h]
    · rw [apply_cons hc]
      by_cases hp : p c
      · obtain ⟨h₁, h₂, h₃⟩ := ih (h.next hc)
        simp [hp, h₁, h₂, h₃]
      · simp [hp, h, apply_cons hc]

/-- Where `p` admits carriage returns, a transcribed line end can add one to what is read. -/
theorem Inside.span_apply (h : T.Inside text) (hn : p '\n' = false)
    (hr : p '\r' = true) :
    (T.Inside (text.dropWhile p) ∧ (text.dropWhile p).head? ≠ some '\n' ∧
      (T.apply text).takeWhile p = text.takeWhile p ∧
      (T.apply text).dropWhile p = T.apply (text.dropWhile p)) ∨
    ∃ rest, text.dropWhile p = '\n' :: rest ∧ T.Within rest ∧
      (T.apply text).dropWhile p = '\n' :: T.apply rest ∧
      ((T.lineEnd = ['\n'] ∧ (T.apply text).takeWhile p = text.takeWhile p) ∨
        T.lineEnd ≠ ['\n'] ∧ (T.apply text).takeWhile p = text.takeWhile p ++ ['\r']) := by
  induction text with
  | nil =>
    exact .inl ⟨h, by simp, by simp [h.nil.2], by simp [h.nil.2]⟩
  | cons c rest ih =>
    by_cases hc : c = '\n'
    · subst hc
      refine .inr ⟨rest, by simp [hn], h.toWithin.next, ?_⟩
      rw [apply_lineFeed]
      obtain he | ⟨he, -⟩ := T.lineEnd_cases <;> simp [he, hn, hr]
    · rw [apply_cons hc]
      by_cases hp : p c
      · simpa [hp] using ih (h.next hc)
      · exact .inl ⟨by simpa [hp] using h, by simpa [hp] using hc, by simp [hp],
          by simp [hp, apply_cons hc]⟩

/-- The characters up to the next line end are the same in the transcription. -/
theorem Inside.take_apply (h : T.Inside text) {n : Nat} (hn : '\n' ∉ text.take n) :
    (T.apply text).take n = text.take n ∧ (T.apply text).drop n = T.apply (text.drop n) ∧
      T.Inside (text.drop n) := by
  induction n generalizing text with
  | zero => simp [h]
  | succ n ih =>
    cases text with
    | nil =>
      simp [h.nil.2, h]
    | cons c rest =>
      rw [List.take_succ_cons, List.mem_cons, not_or] at hn
      have hc := Ne.symm hn.1
      rw [apply_cons hc]
      simpa using ih (h.next hc) hn.2

/-- Where a line ends, its transcription ends too. -/
theorem lineEnd_mem_take (T : Transcription) {n : Nat} (hn : '\n' ∈ text.take n) :
    ∃ c ∈ (T.apply text).take n, c = '\n' ∨ c = '\r' := by
  induction n generalizing text with
  | zero => simp at hn
  | succ n ih =>
    cases text with
    | nil => simp at hn
    | cons c rest =>
      by_cases hc : c = '\n'
      · subst hc
        obtain he | ⟨-, he⟩ := T.apply_lineFeed_cases rest <;> simp [he]
      · rw [List.take_succ_cons, List.mem_cons] at hn
        obtain ⟨d, hd, h⟩ := ih (hn.resolve_left (Ne.symm hc))
        rw [apply_cons hc, List.take_succ_cons]
        exact ⟨d, List.mem_cons_of_mem c hd, h⟩

/-- The same blank text is passed over in the transcription. -/
theorem Within.dropWhile_isBlank (h : T.Within text) :
    (T.apply text).dropWhile Text.isBlank = T.apply (text.dropWhile Text.isBlank) ∧
      T.Within (text.dropWhile Text.isBlank) := by
  refine ⟨?_, h.suffix (List.dropWhile_suffix _)⟩
  clear h
  induction text with
  | nil =>
    apply T.tail_dropWhile
    rintro c (hc | rfl)
    · simp only [Text.isBlank, Bool.or_eq_false_iff, beq_eq_false_iff_ne]
      refine ⟨⟨⟨?_, ?_⟩, ?_⟩, ?_⟩ <;> rintro rfl <;> simp at hc
    · rfl
  | cons c rest ih =>
    by_cases hc : c = '\n'
    · subst hc
      obtain he | ⟨-, he⟩ := T.apply_lineFeed_cases rest <;>
        simp [he, Text.isBlank, ih]
    · rw [apply_cons hc]
      by_cases hp : Text.isBlank c
      · simp [hp, ih]
      · simp [hp, apply_cons hc]

theorem Inside.head?_apply (h : T.Inside text) (hn : c ≠ '\n') (hr : c ≠ '\r') :
    (T.apply text).head? = some c ↔ text.head? = some c := by
  obtain ⟨rfl, ht⟩ | ⟨rest, rfl, -⟩ | ⟨d, rest, rfl, hd, -⟩ := h.cases
  · simp [ht]
  · obtain he | ⟨-, he⟩ := T.apply_lineFeed_cases rest <;> simp [he, hn.symm, hr.symm]
  · simp [apply_cons hd]

theorem Within.head?_apply (h : T.Within text) (hc : IsMark c) :
    (T.apply text).head? = some c ↔ text.head? = some c := by
  by_cases ht : text = []
  · subst ht
    have : T.tail.head? ≠ some c := fun hd =>
      (T.tail_head hd).elim (by simp [hc.2.2.2]) hc.2.2.1
    simpa using this
  · exact (h.inside ht).head?_apply hc.1 hc.2.1

theorem Inside.any_head?_apply (h : T.Inside text) (hn : p '\n' = false)
    (hr : p '\r' = false) : (T.apply text).head?.any p = text.head?.any p := by
  obtain ⟨rfl, ht⟩ | ⟨rest, rfl, -⟩ | ⟨d, rest, rfl, hd, -⟩ := h.cases
  · simp [ht]
  · obtain he | ⟨-, he⟩ := T.apply_lineFeed_cases rest <;> simp [he, hn, hr]
  · simp [apply_cons hd]

theorem length_flatMap (T : Transcription) (front : List Char) :
    front.length ≤ (front.flatMap fun c => if c = '\n' then T.lineEnd else [c]).length := by
  induction front with
  | nil => simp
  | cons c front ih =>
    have : 0 < T.lineEnd.length := by
      obtain h | ⟨h, -⟩ := T.lineEnd_cases <;> simp [h]
    rw [List.flatMap_cons, List.length_append, List.length_cons]
    split
    · omega
    · rw [List.length_singleton]; omega

theorem apply_suffix (T : Transcription) (hs : rest <:+ text) : T.apply rest <:+ T.apply text := by
  obtain ⟨front, rfl⟩ := hs
  rw [apply, apply, List.flatMap_append, List.append_assoc]
  exact List.suffix_append _ _

/-- A rest is shorter than the text it belongs to exactly if its transcription is. -/
theorem length_lt_iff (T : Transcription) (hs : rest <:+ text) :
    (T.apply rest).length < (T.apply text).length ↔ rest.length < text.length := by
  obtain ⟨front, rfl⟩ := hs
  have := T.length_flatMap front
  rw [apply, apply, List.flatMap_append]
  simp only [List.length_append]
  cases front with
  | nil => simp
  | cons c front => simp only [List.length_cons] at this ⊢; omega

theorem Stops.mono {stop stop' : List Char} (h : T.Stops rest stop stop') (hs : rest <:+ text) :
    T.Stops text stop stop' :=
  h.imp_right fun ⟨hl, next, hn, hr⟩ => ⟨hl, next, hn.trans hs, hr⟩

theorem Alike.mono {failure failure' : Failure} (h : T.Alike rest failure failure')
    (hs : rest <:+ text) : T.Alike text failure failure' :=
  ⟨h.kind, h.stops.mono hs, h.missing⟩

/-- Where the first reading does not depart, the second one does not miss a value either. -/
theorem Alike.not_departs {failure failure' : Failure} (h : T.Alike text failure failure')
    (hd : ¬T.Departs failure) (hl : T.lineEnd ≠ ['\n']) : ¬T.Departs failure' := by
  have ht : T.tail = [] := (T.lineEnd_cases.resolve_left hl).2
  have hm : failure'.fault.isMissingValue = failure.fault.isMissingValue := by
    rw [← Fault.isMissingValue_kind, ← h.kind, Fault.isMissingValue_kind]
  rintro (⟨ht', -⟩ | ⟨-, hm', hr⟩)
  · exact ht' ht
  · rw [hm] at hm'
    refine hd (.inr ⟨hl, hm', hr.imp_left fun hr hn => hr ?_⟩)
    rw [h.missing hm', hn, apply_nil, ht]

end

/-! ## Readings put together -/

section

variable {α β σ : Type} {T : Transcription} {text rest : List Char} {fault fault' : Fault}
  {post mid : α → List Char → Prop}

theorem Alone.mono {post' : α → List Char → Prop} {x : Except Failure (α × List Char)}
    (h : T.Alone rest post x) (hs : rest <:+ text) (hp : ∀ a r, post a r → post' a r) :
    T.Alone text post' x := by
  cases x with
  | error => exact h
  | ok x =>
    obtain ⟨hl, after, ha, hr, he⟩ := h
    exact ⟨hl, after, ha.trans hs, hp _ _ hr, he⟩

theorem Agree.alone {x y : Except Failure (α × List Char)} (h : T.Agree text post x y)
    (hl : T.lineEnd ≠ ['\n']) : T.Alone text post y := by
  cases h with
  | read hs h => exact ⟨hl, _, hs, h, rfl⟩
  | stopped hs ha hd =>
    refine ⟨fun ht => absurd (T.lineEnd_cases.resolve_left hl).2 ht, ha.not_departs hd⟩
  | parted hs hd h => exact h

theorem Agree.mono {post' : α → List Char → Prop} {x y : Except Failure (α × List Char)}
    (h : T.Agree rest post x y) (hs : rest <:+ text) (hp : ∀ a r, post a r → post' a r) :
    T.Agree text post' x y := by
  cases h with
  | read hr h => exact .read (hr.trans hs) (hp _ _ h)
  | stopped hr ha hd => exact .stopped (hr.trans hs) (ha.mono hs) hd
  | parted hr hd h => exact .parted (hr.trans hs) hd (h.mono hs hp)

/-- What the first reading leaves, or where it fails, is an end of the text. -/
theorem Agree.suffix {x y : Except Failure (α × List Char)} (h : T.Agree text post x y) :
    stop x <:+ text := by
  cases h with
  | read hs => exact hs
  | stopped hs => exact hs
  | parted hs => exact hs

/-- Readings that miss an argument where the tail is not next. -/
theorem literal_missing (h : text = [] → T.tail = []) :
    T.Agree text post (.error ⟨.expectedLiteral, text⟩)
      (.error ⟨.expectedLiteral, T.apply text⟩) := by
  refine .stopped (List.suffix_refl _) ⟨rfl, .inl rfl, fun _ => rfl⟩ ?_
  rintro (⟨ht, hn⟩ | ⟨-, h, -⟩)
  · exact ht (h (congrArg Failure.rest hn))
  · cases h

/-- Readings that both miss a value. -/
theorem value_missing (hm : fault.isMissingValue = true)
    (h : T.lineEnd ≠ ['\n'] → text = [] ∧ T.closed = false) :
    T.Agree text post (.error ⟨fault, text⟩) (.error ⟨fault, T.apply text⟩) := by
  refine .stopped (List.suffix_refl _) ⟨rfl, .inl rfl, fun _ => rfl⟩ ?_
  rintro (⟨-, hn⟩ | ⟨hl, -, hn | hc⟩)
  · obtain ⟨rfl, rfl⟩ := Failure.mk.inj hn
    cases hm
  · exact hn (h hl).1
  · rw [(h hl).2] at hc
    cases hc

/-- The first reading misses a value, where the second one finds it and agrees with another. -/
theorem Agree.missing {x y : Except Failure (α × List Char)} (h : T.Agree rest post x y)
    (hs : rest <:+ text) (hm : fault.isMissingValue = true) (hl : T.lineEnd ≠ ['\n'])
    (hr : rest ≠ [] ∨ T.closed = true) : T.Agree text post (.error ⟨fault, rest⟩) y :=
  .parted hs (.inr ⟨hl, hm, hr⟩) ((h.alone hl).mono hs fun _ _ => id)

/-- Where something follows, the second reading fails alone that has taken the start of it. -/
theorem Swallowed.parted {failure : Failure} (h : T.Swallowed failure.rest)
    (ht : StartsEntry T.tail) : T.Agree [] post (.error ⟨.expectedLiteral, []⟩) (.error failure) :=
  .parted (List.suffix_refl _) (.inl ⟨ht.ne_nil, rfl⟩)
    ⟨fun _ => h, fun hl => absurd (T.lineEnd_cases.resolve_left hl).2 ht.ne_nil⟩

/-- Readings that come to the end of a text that is not closed. -/
theorem Inside.readEnd (h : T.Inside []) {a : α} (hp : post a []) :
    T.Agree text post (.ok (a, [])) (.ok (a, [])) := by
  have hread : T.Agree text post (.ok (a, [])) (.ok (a, T.apply [])) := .read List.nil_suffix hp
  rwa [apply_nil, h.nil.2] at hread

/-- Readings that fail with a fault at which they cannot part. -/
theorem Agree.fails {rest' : List Char} (hs : rest <:+ text) (hk : fault.kind = fault'.kind)
    (hm : fault.isMissingValue = false) (he : fault ≠ .expectedLiteral)
    (hr : T.Stops text rest rest') :
    T.Agree text post (.error ⟨fault, rest⟩) (.error ⟨fault', rest'⟩) := by
  refine .stopped hs ⟨hk, hr, fun h => absurd h (by simp [hm])⟩ ?_
  rintro (⟨-, hf⟩ | ⟨-, h, -⟩)
  · exact he (congrArg Failure.fault hf)
  · simp [hm] at h

theorem Agree.bind {post : β → List Char → Prop} {p q : Parser α} {k l : α → Parser β}
    {text' : List Char} (h : T.Agree text mid (p text) (q text'))
    (hk : ∀ a rest, rest <:+ text → mid a rest →
      T.Agree rest post (k a rest) (l a (T.apply rest))) :
    T.Agree text post ((p >>= k) text) ((q >>= l) text') := by
  rw [bind_apply, bind_apply]
  generalize p text = x at h
  generalize q text' = y at h
  cases h with
  | read hr h => exact (hk _ _ hr h).mono hr fun _ _ => id
  | stopped hr ha hd => exact .stopped hr ha hd
  | parted hr hd h =>
    refine .parted hr hd ?_
    cases y with
    | error => exact h
    | ok y =>
      obtain ⟨b, rest'⟩ := y
      obtain ⟨hl, rest, hs, hm, rfl⟩ := h
      exact ((hk _ rest hs hm).alone hl).mono hs fun _ _ => id

/-- What holds after a round: `before` in front of another one, `after` behind the last one. -/
def AfterRound (before after : σ → List Char → Prop) : Round σ → List Char → Prop
  | .again state => before state
  | .done state => after state

/-- Rounds may be repeated that agree, the first one for reasons of its own. -/
theorem Agree.iterateFrom {before after : σ → List Char → Prop}
    {round round' : σ → Parser (Round σ)}
    (hstop : ∀ state rest, before state rest → after state rest)
    (hround : ∀ state rest, rest <:+ text → before state rest →
      T.Agree rest (AfterRound before after) (round state rest) (round' state (T.apply rest)))
    {state : σ}
    (h : T.Agree text (AfterRound before after) (round state text) (round' state (T.apply text))) :
    T.Agree text after (iterate round state text) (iterate round' state (T.apply text)) := by
  induction hn : text.length using Nat.strongRecOn generalizing text state with
  | ind n ih =>
    subst hn
    have next (a : Round σ) (rest : List Char) (hs : rest <:+ text)
        (hp : AfterRound before after a rest) :
        T.Agree text after
          (match a with
            | .done state => .ok (state, rest)
            | .again state =>
              if rest.length < text.length then iterate round state rest else .ok (state, rest))
          (match a with
            | .done state => .ok (state, T.apply rest)
            | .again state =>
              if (T.apply rest).length < (T.apply text).length then
                iterate round' state (T.apply rest)
              else .ok (state, T.apply rest)) := by
      cases a with
      | done state => exact .read hs hp
      | again state =>
        simp only [T.length_lt_iff hs]
        split
        · have rounds (state : σ) (after : List Char) (ha : after <:+ rest) :=
            hround state after (ha.trans hs)
          exact (ih _ ‹_› rounds (hround state rest hs hp) rfl).mono hs fun _ _ => id
        · exact .read hs (hstop _ _ hp)
    rw [iterate, iterate]
    generalize round state text = x at h
    generalize round' state (T.apply text) = y at h
    cases h with
    | stopped hr ha hd => exact .stopped hr ha hd
    | @read a rest hs hp => cases a <;> exact next _ rest hs hp
    | parted hr hd h =>
      refine .parted hr hd ?_
      cases y with
      | error => exact h
      | ok y =>
        obtain ⟨a, rest'⟩ := y
        obtain ⟨hl, rest, hs, hp, rfl⟩ := h
        cases a <;> exact (next _ rest hs hp).alone hl

theorem Agree.iterate {before after : List Char → Prop} {round round' : σ → Parser (Round σ)}
    (hstop : ∀ rest, before rest → after rest)
    (hround : ∀ state rest, rest <:+ text → before rest →
      T.Agree rest (AfterRound (fun _ => before) fun _ => after) (round state rest)
        (round' state (T.apply rest)))
    (h : before text) (state : σ) :
    T.Agree text (fun _ => after) (Text.Reader.iterate round state text)
      (Text.Reader.iterate round' state (T.apply text)) :=
  iterateFrom (fun _ => hstop) hround (hround state text (List.suffix_refl _) h)

end

end Transcription

end Fluent.Grammar
