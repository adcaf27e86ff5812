import Fluent.Proofs.Extension.Token
import Fluent.Proofs.Transcription.Basic

/-!
# Texts with and without a last line end

A text that does not end with a line end is read as the text with a line end behind it is read. The
places at which the two readings stand correspond, until both are at their ends. Where a reading
fails at the end of the text, so does the other one in front of the line end, and in all but a few
cases for the same kind of reason.

* `Matches`: corresponding places in the two texts;
* `TurnsInto`: the failures for which the other reading fails for another reason;
* `Alike`, `Closes`: what two readings have in common, at one place and at any two that correspond;
* `Closes.bind`, `Alike.iterate`: readers that close texts may be put together.
-/

namespace Fluent.Grammar.LastLine

open Fluent.Grammar.Parser Fluent.Text.Reader

/-- Corresponding places in a text and in the text with a line end behind it: the line end is still
to come, or both are at their ends. -/
inductive Matches : List Char → List Char → Prop
  | ahead (rest : List Char) : Matches rest (rest ++ ['\n'])
  | ended : Matches [] []

/-- A text that is not blank. -/
def Visible (text : List Char) : Prop := ∃ c ∈ text, Text.isBlank c = false

/-- Behind each line end of the text there is something that is not blank. -/
def Filled (text : List Char) : Prop := ∀ rest, '\n' :: rest <:+ text → Visible rest

/-- What a reader fails with in front of a last line end, where it is something else than what it
fails with at the end of the text: no argument follows rather than no closing parenthesis, and no
variants rather than no line end. -/
inductive TurnsInto : Failure → Fault → Prop
  | closing : TurnsInto ⟨.expectedToken ')', []⟩ .expectedLiteral
  | capitals : TurnsInto ⟨.functionNameNotUppercase, []⟩ .expectedLiteral
  | lineEnd : TurnsInto ⟨.variantsOnNewLine, []⟩ .missingVariants
  | carriageReturn : TurnsInto ⟨.variantsOnNewLine, ['\r']⟩ .missingVariants

/-- Whether a fault can turn into another one. -/
def turns : Fault → Bool
  | .expectedToken c => c == ')'
  | .functionNameNotUppercase => true
  | .variantsOnNewLine => true
  | _ => false

/-- What is common to the readings of `text` and of the text with a last line end: both find the
same, in the sense of `R`; both fail alike, at corresponding places; or the one failure turns into
the other. -/
inductive Alike {α : Type} (R : α × List Char → α × List Char → Prop) (text : List Char) :
    Except Failure (α × List Char) → Except Failure (α × List Char) → Prop
  | read {found found'} : found.2 <:+ text → R found found' →
      Alike R text (.ok found) (.ok found')
  | stopped {failure failure'} : failure.rest <:+ text → Matches failure.rest failure'.rest →
      failure.fault.kind = failure'.fault.kind → (∀ fault, ¬TurnsInto failure fault) →
      Alike R text (.error failure) (.error failure')
  | turned {failure fault} : failure.rest <:+ text → TurnsInto failure fault →
      Alike R text (.error failure) (.error ⟨fault, []⟩)

/-- Both readings find the same and leave corresponding rests. -/
def Same {α : Type} (found found' : α × List Char) : Prop :=
  found.1 = found'.1 ∧ Matches found.2 found'.2

/-- Of two readers the second one reads a text with a last line end as the first one reads the text,
from corresponding places on. -/
def Closes {α : Type} (p q : Parser α) : Prop :=
  ∀ text text', Matches text text' → Filled text → Alike Same text (p text) (q text')

/-! ## Corresponding places -/

section

variable {text text' rest : List Char} {p : Char → Bool}

theorem Filled.suffix (filled : Filled text) (hs : rest <:+ text) : Filled rest :=
  fun after ha => filled after (ha.trans hs)

theorem Matches.dropWhile (h : Matches text text') (p : Char → Bool) :
    Matches (text.dropWhile p) (text'.dropWhile p) := by
  cases h with
  | ended => exact .ended
  | ahead =>
    rw [List.dropWhile_append]
    cases text.dropWhile p with
    | cons c rest => exact .ahead _
    | nil =>
      rw [List.isEmpty_nil, if_pos rfl]
      by_cases hp : p '\n' = true
      · rw [List.dropWhile_cons_of_pos hp]
        exact .ended
      · rw [List.dropWhile_cons_of_neg hp]
        exact .ahead []

theorem Matches.takeWhile (h : Matches text text') (hp : p '\n' = false) :
    text'.takeWhile p = text.takeWhile p := by
  cases h with
  | ended => rfl
  | ahead =>
    rw [List.takeWhile_append, List.takeWhile_cons_of_neg (by simp [hp]), List.append_nil]
    split
    · exact ((List.takeWhile_prefix p).eq_of_length ‹_›).symm
    · rfl

theorem Matches.drop (h : Matches text text') (n : Nat) : Matches (text.drop n) (text'.drop n) := by
  cases h with
  | ended =>
    rw [List.drop_nil]
    exact .ended
  | ahead =>
    rw [List.drop_append]
    rcases le_or_gt n text.length with within | beyond
    · rw [Nat.sub_eq_zero_of_le within]
      exact .ahead _
    · rw [List.drop_of_length_le beyond.le, List.drop_of_length_le (by simp; omega)]
      exact .ended

theorem Matches.head?_any (h : Matches text text') (hp : p '\n' = false) :
    text'.head?.any p = text.head?.any p := by
  cases h with
  | ended => rfl
  | ahead => cases text <;> simp [hp]

theorem Matches.head?_eq_some (h : Matches text text') {c : Char} (hc : c ≠ '\n') :
    text'.head? = some c ↔ text.head? = some c := by
  cases h with
  | ended => exact Iff.rfl
  | ahead => cases text <;> simp [hc.symm]

theorem Matches.eq_nil (h : Matches text []) : text = [] := by
  generalize hn : ([] : List Char) = none at h
  cases h with
  | ended => rfl
  | ahead => exact absurd hn.symm (by simp)

/-- Where a character other than a line feed is next, the line end is still to come. -/
theorem Matches.eq_cons {c : Char} (h : Matches (c :: rest) text') :
    text' = c :: (rest ++ ['\n']) := by
  cases h
  rfl

theorem Matches.next {c : Char} (h : Matches (c :: rest) text') :
    ∃ rest', text' = c :: rest' ∧ Matches rest rest' :=
  ⟨_, h.eq_cons, .ahead rest⟩

theorem Matches.of_cons {c : Char} {rest' : List Char} (h : Matches text (c :: rest'))
    (hc : c ≠ '\n') : ∃ rest, text = c :: rest ∧ Matches rest rest' := by
  obtain ⟨rest, rfl⟩ := List.head?_eq_some_iff.mp ((h.head?_eq_some hc).mp rfl)
  exact ⟨rest, rfl, (List.cons.inj h.eq_cons).2 ▸ .ahead rest⟩

/-- Characters that are passed over up to a line end at the latest leave it to come. -/
theorem dropWhile_lineFeed (hp : p '\n' = false) (text : List Char) :
    (text ++ ['\n']).dropWhile p = text.dropWhile p ++ ['\n'] := by
  induction text with
  | nil => simp [hp]
  | cons c text ih =>
    rw [List.cons_append]
    by_cases hc : p c = true
    · rw [List.dropWhile_cons_of_pos hc, List.dropWhile_cons_of_pos hc, ih]
    · rw [List.dropWhile_cons_of_neg hc, List.dropWhile_cons_of_neg hc, List.cons_append]

end

/-! ## Readings -/

section

variable {α β σ : Type} {text text' rest rest' : List Char} {fault fault' : Fault}
  {R R' : α × List Char → α × List Char → Prop} {S : β × List Char → β × List Char → Prop}
  {x y : Except Failure (α × List Char)}

theorem TurnsInto.turns {failure : Failure} (h : TurnsInto failure fault) :
    LastLine.turns failure.fault = true := by
  cases h <;> rfl

theorem Alike.mono (h : Alike R rest x y) (hs : rest <:+ text)
    (hR : ∀ found found', R found found' → R' found found') : Alike R' text x y := by
  cases h with
  | read hr h => exact .read (hr.trans hs) (hR _ _ h)
  | stopped hr hm hk ht => exact .stopped (hr.trans hs) hm hk ht
  | turned hr ht => exact .turned (hr.trans hs) ht

theorem Alike.within (h : Alike R rest x y) (hs : rest <:+ text) : Alike R text x y :=
  h.mono hs fun _ _ => id

/-- What is found leaves an end of the text. -/
theorem Alike.suffix {found : α × List Char} (h : Alike R text (.ok found) y) :
    found.2 <:+ text := by
  cases h with
  | read hs => exact hs

theorem alike_ok {a : α} (hs : rest <:+ text) (h : Matches rest rest') :
    Alike Same text (.ok (a, rest)) (.ok (a, rest')) :=
  .read hs ⟨rfl, h⟩

/-- Readings that fail alike, with a fault that turns into no other one. -/
theorem alike_error (hs : rest <:+ text) (h : Matches rest rest') (hk : fault.kind = fault'.kind)
    (ht : turns fault = false) :
    Alike R text (.error ⟨fault, rest⟩) (.error ⟨fault', rest'⟩) :=
  .stopped hs h hk fun _ turned => by simp [turned.turns] at ht

theorem Alike.choice {P : Prop} [Decidable P] {x' y' : Except Failure (α × List Char)}
    (h : Alike R text x y) (h' : Alike R text x' y') :
    Alike R text (if P then x else x') (if P then y else y') := by
  split
  · exact h
  · exact h'

theorem Alike.bind {p q : Parser α} {k l : α → Parser β} {start start' : List Char}
    (h : Alike R text (p start) (q start'))
    (hk : ∀ found found', found.2 <:+ text → R found found' →
      Alike S found.2 (k found.1 found.2) (l found'.1 found'.2)) :
    Alike S text ((p >>= k) start) ((q >>= l) start') := by
  rw [bind_apply, bind_apply]
  generalize p start = x at h
  generalize q start' = y at h
  cases h with
  | read hr h => exact (hk _ _ hr h).within hr
  | stopped hr hm hk ht => exact .stopped hr hm hk ht
  | turned hr ht => exact .turned hr ht

/-- Readings put together, of which the first ones find the same. -/
theorem Alike.bindSame {p q : Parser α} {k l : α → Parser β} {start start' : List Char}
    (h : Alike Same text (p start) (q start'))
    (hk : ∀ a rest rest', rest <:+ text → Matches rest rest' →
      Alike S rest (k a rest) (l a rest')) :
    Alike S text ((p >>= k) start) ((q >>= l) start') := by
  refine h.bind ?_
  rintro ⟨a, rest⟩ ⟨_, rest'⟩ hs ⟨rfl, hm⟩
  exact hk a rest rest' hs hm

theorem closes_pure (a : α) : Closes (pure a) (pure a) :=
  fun _ _ h _ => alike_ok (List.suffix_refl _) h

theorem closes_fail (ht : turns fault = false) : Closes (fail fault : Parser α) (fail fault) :=
  fun _ _ h _ => alike_error (List.suffix_refl _) h rfl ht

theorem Closes.bind {p q : Parser α} {k l : α → Parser β} (h : Closes p q)
    (hk : ∀ a, Closes (k a) (l a)) : Closes (p >>= k) (q >>= l) := fun text text' hm filled =>
  (h text text' hm filled).bindSame fun a rest rest' hs hm =>
    hk a rest rest' hm (filled.suffix hs)

theorem Closes.map {p q : Parser α} {f : α → β} (h : Closes p q) : Closes (f <$> p) (f <$> q) := by
  rw [map_eq_pure_bind, map_eq_pure_bind]
  exact h.bind fun a => closes_pure (f a)

theorem Closes.choice {P : Prop} [Decidable P] {p p' q q' : Parser α} (h : Closes p q)
    (h' : Closes p' q') : Closes (if P then p else p') (if P then q else q') := by
  split
  · exact h
  · exact h'

/-- Where the next character decides, and the end of a text does as a line end, the readers of the
two branches may be looked at apart. -/
theorem closes_peek {P : Option Char → Prop} [DecidablePred P] (hP : P none ↔ P (some '\n'))
    {p p' q q' : Parser α} (h : Closes p q) (h' : Closes p' q') :
    Closes (peek >>= fun c => if P c then p else p') (peek >>= fun c => if P c then q else q') := by
  intro text text' hm filled
  have same : P text'.head? ↔ P text.head? := by
    cases hm with
    | ended => exact Iff.rfl
    | ahead =>
      cases text with
      | nil => exact hP.symm
      | cons => exact Iff.rfl
  rw [peek_bind_apply, peek_bind_apply, choice_apply, choice_apply]
  simp only [same]
  exact (h text text' hm filled).choice (h' text text' hm filled)

/-- Rounds that are done alike, or that are both to go on from the same state, where `P`
holds. -/
inductive SameRound {σ : Type} (P : σ → List Char → Prop)
    (R : σ × List Char → σ × List Char → Prop) :
    Round σ × List Char → Round σ × List Char → Prop
  | again {state rest rest'} : P state rest → Matches rest rest' →
      SameRound P R (.again state, rest) (.again state, rest')
  | done {state state' rest rest'} : R (state, rest) (state', rest') →
      SameRound P R (.done state, rest) (.done state', rest')

/-- Rounds may be repeated, if none at the end of the text asks for another one. `P` holds in
front of each. -/
theorem Alike.iterate {R : σ × List Char → σ × List Char → Prop} {P : σ → List Char → Prop}
    {round round' : σ → Parser (Round σ)}
    (hnil : ∀ state next rest, round state [] ≠ .ok (.again next, rest))
    (hstop : ∀ state next rest after after', rest <:+ text →
      round state rest = .ok (.again next, after) → rest.length ≤ after.length →
      Matches after after' → R (next, after) (next, after'))
    (hround : ∀ state rest rest', rest <:+ text → Matches rest rest' → P state rest →
      Alike (SameRound P R) rest (round state rest) (round' state rest'))
    {state : σ} (hm : Matches text text') (hb : P state text) :
    Alike R text (Text.Reader.iterate round state text)
      (Text.Reader.iterate round' state text') := by
  induction hn : text.length using Nat.strongRecOn generalizing text text' state with
  | ind n ih =>
    subst hn
    have once := hround state text text' (List.suffix_refl _) hm hb
    rw [Text.Reader.iterate, Text.Reader.iterate]
    generalize hx : round state text = x at once
    generalize round' state text' = y at once
    cases once with
    | stopped hr hm hk ht => exact .stopped hr hm hk ht
    | turned hr ht => exact .turned hr ht
    | read hs same =>
      cases same with
      | done same => exact .read hs same
      | @again next rest rest' hb' hm' =>
        have some : text ≠ [] := by
          rintro rfl
          exact hnil _ _ _ hx
        -- The rest is shorter in the one text exactly if it is in the other.
        have shorter : rest'.length < text'.length ↔ rest.length < text.length := by
          have := List.length_pos_of_ne_nil some
          cases hm with
          | ended => exact absurd rfl some
          | ahead => cases hm' <;> simp [this]
        simp only [shorter]
        split
        · refine (ih _ ‹_› (fun state next after _ _ ha => ?_) (fun state after _ ha => ?_) hm' hb'
            rfl).within hs
          · exact hstop state next after _ _ (ha.trans hs)
          · exact hround state after _ (ha.trans hs)
        · exact .read hs (hstop _ _ _ _ _ (List.suffix_refl _) hx (Nat.not_lt.mp ‹_›) hm')

theorem Closes.iterate {round round' : σ → Parser (Round σ)}
    (hnil : ∀ state next rest, round state [] ≠ .ok (.again next, rest))
    (h : ∀ state, Closes (round state) (round' state)) (state : σ) :
    Closes (Text.Reader.iterate round state) (Text.Reader.iterate round' state) := by
  intro text text' hm filled
  refine Alike.iterate (P := fun _ _ => True) hnil (fun _ _ _ _ _ _ _ _ hm => ⟨rfl, hm⟩)
    (fun state rest rest' hs hm _ => ?_) hm trivial
  refine (h state rest rest' hm (filled.suffix hs)).mono (List.suffix_refl _) ?_
  rintro ⟨round, after⟩ ⟨_, after'⟩ ⟨rfl, hm⟩
  cases round with
  | again state => exact .again trivial hm
  | done state => exact .done ⟨rfl, hm⟩

end

end Fluent.Grammar.LastLine
