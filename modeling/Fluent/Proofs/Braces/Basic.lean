import Fluent.Proofs.Braces.Scan
import Fluent.Proofs.Progress
import Fluent.Proofs.Soundness.Basic

/-!
# Reading inside a pair of braces

A reader that stops inside a pair of braces has not looked past them. So it reads the same whatever
stands behind them, and whatever room there is for braces, as long as there is enough; where there
is not, it fails for that reason.

* `Frame`: what stands around a pair of braces;
* `Reads`: a reading in all frames, by how much room it takes;
* `Local`, `Encloses`: readers that stop in front of the closing brace, or behind it, and what
  scanning their part of the text comes to;
* `LocalAt`, `EnclosesAt`: the same at one place;
* `Local.bind`, `Local.iterate`, `Local.recursive`, `Local.encloses`: readers put together.
-/

namespace Fluent.Grammar.Braces

open Fluent.Grammar.Parser Fluent.Text.Reader

/-- What stands around a pair of braces: the room for braces inside it, and the text behind it. -/
structure Frame where
  room : Nat
  tail : List Char

/-- The text with its closing brace and what stands behind it. -/
def Frame.close (frame : Frame) (body : List Char) : List Char := body ++ '}' :: frame.tail

/-- The next character inside a pair of braces, or its closing one. -/
def ahead (body : List Char) : Char := body.headD '}'

/-- What a reader leaves is an end of the text. -/
def Shrinks {α : Type} (p : Parser α) : Prop :=
  ∀ text a rest, p text = .ok (a, rest) → rest <:+ text

/-- What a reader leaves stands behind a closing brace. -/
def Braced {α : Type} (p : Parser α) : Prop :=
  ∀ text a rest, p text = .ok (a, rest) → '}' :: rest <:+ text

/-- In all frames with room enough the reader finds the same, and leaves what `left` tells; in the
others it fails for want of room. -/
structure Reads {α : Type} (P : Frame → Parser α) (k : Nat) (body : List Char)
    (left : Frame → List Char) (a : α) : Prop where
  enough : ∀ frame, k ≤ frame.room → P frame (frame.close body) = .ok (a, left frame)
  short : ∀ frame, frame.room < k →
    ∃ stop, P frame (frame.close body) = .error ⟨.tooDeeplyNested, stop⟩

variable {α β σ : Type} {r k k' : Nat} {m m' : Mode} {body rest text : List Char}
  {P Q : Frame → Parser α} {Pre Pre' : Mode → List Char → Prop}
  {Post Post' : α → Mode → List Char → Prop} {After : β → Mode → List Char → Prop}

/-- Where a reader stops inside a pair of braces, all frames read alike, and scanning what it passes
over leads from `m` to such a mode as `Post` tells. -/
def LocalAt (r : Nat) (P : Frame → Parser α) (Post : α → Mode → List Char → Prop) (m : Mode)
    (body : List Char) : Prop :=
  ∀ frame : Frame, frame.room = r → ∀ a rest,
    P frame (frame.close body) = .ok (a, frame.close rest) →
    ∃ k run m', k ≤ r ∧ body = run ++ rest ∧ Walks k m run [m'] ∧ Post a m' rest ∧
      Reads P k body (·.close rest) a

/-- A reader that may stop inside a pair of braces. -/
structure Local (r : Nat) (Pre : Mode → List Char → Prop) (P : Frame → Parser α)
    (Post : α → Mode → List Char → Prop) : Prop where
  shrinks : ∀ frame : Frame, frame.room = r → Shrinks (P frame)
  reads : ∀ m body, Pre m body → LocalAt r P Post m body

/-- Where a reader stops behind the closing brace, all frames read alike, and scanning what it
passes over leads out of the pair of braces. -/
def EnclosesAt (r : Nat) (P : Frame → Parser α) (m : Mode) (body : List Char) : Prop :=
  ∀ frame : Frame, frame.room = r → ∀ a, P frame (frame.close body) = .ok (a, frame.tail) →
    ∃ k, k ≤ r ∧ Walks k m (body ++ ['}']) [] ∧ Reads P k body Frame.tail a

/-- A reader that stops behind a closing brace. -/
structure Encloses (r : Nat) (Pre : Mode → List Char → Prop) (P : Frame → Parser α) : Prop where
  braced : ∀ frame : Frame, frame.room = r → Braced (P frame)
  reads : ∀ m body, Pre m body → EnclosesAt r P m body

/-! ## Places inside braces -/

@[simp] theorem ahead_nil : ahead [] = '}' := rfl

@[simp] theorem ahead_cons (c : Char) (body : List Char) : ahead (c :: body) = c := rfl

@[simp] theorem head?_close (frame : Frame) (body : List Char) :
    (frame.close body).head? = some (ahead body) := by
  cases body <;> rfl

@[simp] theorem close_cons (frame : Frame) (c : Char) (body : List Char) :
    frame.close (c :: body) = c :: frame.close body :=
  rfl

@[simp] theorem close_append (frame : Frame) (run body : List Char) :
    frame.close (run ++ body) = run ++ frame.close body :=
  List.append_assoc _ _ _

theorem close_inj {frame : Frame} (h : frame.close body = frame.close rest) : body = rest :=
  List.append_cancel_right h

theorem close_ne_tail (frame : Frame) (body : List Char) : frame.close body ≠ frame.tail := by
  intro same
  have longer := congrArg List.length same
  simp [Frame.close] at longer
  omega

theorem close_length_lt {frame : Frame} :
    (frame.close rest).length < (frame.close body).length ↔ rest.length < body.length := by
  simp [Frame.close]

/-- Between two places inside a pair of braces there are only such. -/
theorem exists_close {frame : Frame} (inner : '}' :: frame.tail <:+ text)
    (outer : text <:+ frame.close body) : ∃ mid, text = frame.close mid ∧ mid <:+ body := by
  obtain ⟨mid, rfl⟩ := inner
  obtain ⟨run, parts⟩ := outer
  rw [← List.append_assoc] at parts
  exact ⟨mid, rfl, run, List.append_cancel_right parts⟩

theorem closing_suffix (frame : Frame) (rest : List Char) :
    '}' :: frame.tail <:+ frame.close rest :=
  List.suffix_append _ _

theorem exists_cons_of_ahead {c : Char} (here : ahead body = c) (other : c ≠ '}') :
    ∃ rest, body = c :: rest := by
  cases body with
  | nil => exact absurd here.symm other
  | cons d rest => exact ⟨rest, by rw [show d = c from here]⟩

theorem exists_cons_of_ne (body : List Char) (other : ahead body ≠ '}') :
    ∃ rest, body = ahead body :: rest :=
  exists_cons_of_ahead rfl other

theorem close_eq_cons {frame : Frame} {c : Char} {after : List Char}
    (parts : frame.close body = c :: after) (other : c ≠ '}') :
    ∃ rest, body = c :: rest ∧ after = frame.close rest := by
  cases body with
  | nil => exact absurd (List.cons.inj parts).1.symm other
  | cons d rest =>
    obtain ⟨rfl, rfl⟩ := List.cons.inj parts
    exact ⟨rest, rfl, rfl⟩

theorem dropWhile_close (frame : Frame) {p : Char → Bool} (stops : p '}' = false)
    (body : List Char) : (frame.close body).dropWhile p = frame.close (body.dropWhile p) := by
  induction body with
  | nil => exact List.dropWhile_cons_of_neg (by simp [stops])
  | cons c body ih => by_cases h : p c = true <;> simp [h, ih]

theorem takeWhile_close (frame : Frame) {p : Char → Bool} (stops : p '}' = false)
    (body : List Char) : (frame.close body).takeWhile p = body.takeWhile p := by
  induction body with
  | nil => exact List.takeWhile_cons_of_neg (by simp [stops])
  | cons c body ih => by_cases h : p c = true <;> simp [h, ih]

theorem ahead_dropWhile {p : Char → Bool} (stops : p '}' = false) (body : List Char) :
    p (ahead (body.dropWhile p)) = false := by
  have head := List.head?_dropWhile_not p body
  cases rest : body.dropWhile p with
  | nil => exact stops
  | cons c rest => simpa [rest] using head

/-! ## Readers put together -/

theorem shrinks_pure (a : α) : Shrinks (pure a : Parser α) := by
  intro text b rest read
  obtain ⟨-, rfl⟩ := Prod.mk.inj (Except.ok.inj read)
  exact List.suffix_refl _

theorem Shrinks.bind {p : Parser α} {q : α → Parser β} (first : Shrinks p)
    (next : ∀ a, Shrinks (q a)) : Shrinks (p >>= q) := by
  intro text b rest read
  obtain ⟨a, mid, read, read'⟩ := exists_of_bind_ok read
  exact (next a mid b rest read').trans (first text a mid read)

theorem Shrinks.braced {p : Parser α} {q : α → Parser β} (first : Shrinks p)
    (next : ∀ a, Braced (q a)) : Braced (p >>= q) := by
  intro text b rest read
  obtain ⟨a, mid, read, read'⟩ := exists_of_bind_ok read
  exact (next a mid b rest read').trans (first text a mid read)

theorem Braced.shrinks {p : Parser α} (braced : Braced p) : Shrinks p :=
  fun text a rest read => (List.suffix_cons _ _).trans (braced text a rest read)

/-- Readings that agree end where they end. -/
theorem shrinks_of_agree {p : Parser α} {post : List Char → α → List Char → Prop}
    {other : List Char → Except Failure (α × List Char)}
    (agree : ∀ text, (Transcription.asIs text).Agree text (post text) (p text) (other text)) :
    Shrinks p := by
  intro text a rest read
  have ends := (agree text).suffix
  rwa [read] at ends

namespace Reads

variable {left : Frame → List Char} {a : α}

theorem bind {K : Frame → α → Parser β} {b : β} {mid : List Char}
    (first : Reads P k body (·.close mid) a) (next : Reads (K · a) k' mid left b) :
    Reads (fun frame => P frame >>= K frame) (max k k') body left b where
  enough frame room := by
    rw [bind_ok (first.enough frame (by omega))]
    exact next.enough frame (by omega)
  short frame room := by
    by_cases early : frame.room < k
    · obtain ⟨stop, fails⟩ := first.short frame early
      exact ⟨stop, bind_error fails _⟩
    · rw [bind_ok (first.enough frame (by omega))]
      exact next.short frame (by omega)

/-- What is read without looking at the room takes none. -/
theorem of_all (all : ∀ frame, P frame (frame.close body) = .ok (a, left frame)) :
    Reads P 0 body left a :=
  ⟨fun frame _ => all frame, fun _ none => absurd none (Nat.not_lt_zero _)⟩

end Reads

/-- A second reader goes on from where the first one stops. -/
theorem LocalAt.bind {K : Frame → α → Parser β} (first : LocalAt r P Post m body)
    (shrinks : ∀ frame : Frame, frame.room = r → Shrinks (P frame))
    (shrinks' : ∀ a, ∀ frame : Frame, frame.room = r → Shrinks (K frame a))
    (next : ∀ a m' mid, Post a m' mid →
      (∃ frame : Frame, frame.room = r ∧ P frame (frame.close body) = .ok (a, frame.close mid)) →
      LocalAt r (K · a) After m' mid) :
    LocalAt r (fun frame => P frame >>= K frame) After m body := by
  intro frame room b rest read
  obtain ⟨a, mid, read, read'⟩ := exists_of_bind_ok read
  have behind := shrinks' a frame room mid b _ read'
  obtain ⟨mid, rfl, -⟩ := exists_close ((closing_suffix frame rest).trans behind)
    (shrinks frame room _ a mid read)
  obtain ⟨k, run, m', small, rfl, walks, post, reads⟩ := first frame room a mid read
  obtain ⟨k', run', m'', small', rfl, walks', after, reads'⟩ :=
    next a m' mid post ⟨frame, room, read⟩ frame room b rest read'
  exact ⟨max k k', run ++ run', m'', Nat.max_le.mpr ⟨small, small'⟩,
    (List.append_assoc _ _ _).symm, walks.append walks', after, reads.bind reads'⟩

/-- A reader that passes over a run first, which is scanned within its pair of braces. -/
theorem LocalAt.skip {run mid : List Char} (loc : LocalAt r Q Post m' mid)
    (parts : body = run ++ mid) (walks : Walks 0 m run [m'])
    (same : ∀ frame, P frame (frame.close body) = Q frame (frame.close mid)) :
    LocalAt r P Post m body := by
  intro frame room a rest read
  rw [same] at read
  obtain ⟨k, run', m'', small, rfl, walks', post, reads⟩ := loc frame room a rest read
  refine ⟨k, run ++ run', m'', small, by rw [parts, List.append_assoc], ?_, post, ?_⟩
  · rw [← Nat.zero_max k]
    exact walks.append walks'
  · exact ⟨fun frame room => (same frame).trans (reads.enough frame room),
      fun frame room => (same frame).symm ▸ reads.short frame room⟩

theorem LocalAt.congr (loc : LocalAt r P Post m body)
    (same : ∀ frame, Q frame (frame.close body) = P frame (frame.close body)) :
    LocalAt r Q Post m body :=
  loc.skip (List.nil_append body).symm walks_nil same

theorem localAt_pure {a : α} (h : Post a m body) : LocalAt r (fun _ => pure a) Post m body := by
  intro frame _ b rest read
  obtain ⟨rfl, same⟩ := Prod.mk.inj (Except.ok.inj read)
  obtain rfl := close_inj same
  exact ⟨0, [], m, Nat.zero_le _, rfl, walks_nil, h, .of_all fun _ => rfl⟩

namespace Local

theorem mono (loc : Local r Pre P Post) (before : ∀ m body, Pre' m body → Pre m body)
    (after : ∀ a m rest, Post a m rest → Post' a m rest) : Local r Pre' P Post' where
  shrinks := loc.shrinks
  reads m body pre frame room a rest read := by
    obtain ⟨k, run, m', small, parts, walks, post, reads⟩ :=
      loc.reads m body (before m body pre) frame room a rest read
    exact ⟨k, run, m', small, parts, walks, after a m' rest post, reads⟩

theorem before (loc : Local r Pre P Post) (h : ∀ m body, Pre' m body → Pre m body) :
    Local r Pre' P Post :=
  loc.mono h fun _ _ _ => id

theorem pure {a : α} (h : ∀ m body, Pre m body → Post a m body) :
    Local r Pre (fun _ => Pure.pure a) Post where
  shrinks _ _ := shrinks_pure a
  reads m body pre := localAt_pure (h m body pre)

theorem fails (h : ∀ frame text a rest, P frame text ≠ .ok (a, rest)) : Local r Pre P Post where
  shrinks frame _ text a rest read := absurd read (h frame text a rest)
  reads _ _ _ frame _ a _ read := absurd read (h frame _ a _)

theorem bind {K : Frame → α → Parser β} (first : Local r Pre P Post)
    (next : ∀ a, Local r (Post a) (K · a) After) :
    Local r Pre (fun frame => P frame >>= K frame) After where
  shrinks frame room := (first.shrinks frame room).bind fun a => (next a).shrinks frame room
  reads m body pre := (first.reads m body pre).bind first.shrinks (fun a => (next a).shrinks)
    fun a m' mid post _ => (next a).reads m' mid post

theorem encloses {K : Frame → α → Parser β} (first : Local r Pre P Post)
    (next : ∀ a, Encloses r (Post a) (K · a)) :
    Encloses r Pre (fun frame => P frame >>= K frame) where
  braced frame room := (first.shrinks frame room).braced fun a => (next a).braced frame room
  reads m body pre frame room b read := by
    obtain ⟨a, mid, read, read'⟩ := exists_of_bind_ok read
    obtain ⟨mid, rfl, -⟩ := exists_close ((next a).braced frame room mid b _ read')
      (first.shrinks frame room _ a mid read)
    obtain ⟨k, run, m', small, rfl, walks, post, reads⟩ :=
      first.reads m body pre frame room a mid read
    obtain ⟨k', small', walks', reads'⟩ := (next a).reads m' mid post frame room b read'
    refine ⟨max k k', Nat.max_le.mpr ⟨small, small'⟩, ?_, reads.bind reads'⟩
    rw [List.append_assoc]
    exact walks.append walks'

theorem choice {C : Prop} [Decidable C] (first : C → Local r Pre P Post)
    (second : ¬C → Local r Pre Q Post) :
    Local r Pre (fun frame => if C then P frame else Q frame) Post := by
  split
  · exact first ‹_›
  · exact second ‹_›

end Local

theorem EnclosesAt.skip {run mid : List Char} (encloses : EnclosesAt r Q m' mid)
    (parts : body = run ++ mid) (walks : Walks 0 m run [m'])
    (same : ∀ frame, P frame (frame.close body) = Q frame (frame.close mid)) :
    EnclosesAt r P m body := by
  intro frame room a read
  rw [same] at read
  obtain ⟨k, small, walks', reads⟩ := encloses frame room a read
  refine ⟨k, small, ?_, fun frame room => (same frame).trans (reads.enough frame room),
    fun frame room => (same frame).symm ▸ reads.short frame room⟩
  rw [parts, List.append_assoc, ← Nat.zero_max k]
  exact walks.append walks'

theorem Encloses.choice {C : Prop} [Decidable C] (first : C → Encloses r Pre P)
    (second : ¬C → Encloses r Pre Q) :
    Encloses r Pre (fun frame => if C then P frame else Q frame) := by
  split
  · exact first ‹_›
  · exact second ‹_›

theorem Encloses.fails (h : ∀ frame text a rest, P frame text ≠ .ok (a, rest)) :
    Encloses r Pre P where
  braced frame _ text a rest read := absurd read (h frame text a rest)
  reads _ _ _ frame _ a read := absurd read (h frame _ a _)

theorem Encloses.map (encloses : Encloses r Pre P) (f : α → β) :
    Encloses r Pre (fun frame => P frame >>= fun a => pure (f a)) where
  braced frame room text b rest read := by
    obtain ⟨a, mid, first, read⟩ := exists_of_bind_ok read
    obtain ⟨-, rfl⟩ := Prod.mk.inj (Except.ok.inj read)
    exact encloses.braced frame room text a mid first
  reads m body pre frame room b read := by
    obtain ⟨a, mid, first, read⟩ := exists_of_bind_ok read
    obtain ⟨rfl, rfl⟩ := Prod.mk.inj (Except.ok.inj read)
    obtain ⟨k, small, walks, reads⟩ := encloses.reads m body pre frame room a first
    refine ⟨k, small, walks, fun frame room => ?_, fun frame room => ?_⟩
    · rw [bind_ok (reads.enough frame room)]
      rfl
    · obtain ⟨stop, fails⟩ := reads.short frame room
      exact ⟨stop, bind_error fails _⟩

/-! ## Repetition -/

/-- What holds behind a round, whether it is followed by another one or the last. -/
def KeptAt (I D : σ → Mode → List Char → Prop) : Round σ → Mode → List Char → Prop
  | .again state => I state
  | .done state => D state

/-- What comes after a round. -/
def afterRound (round : σ → Parser (Round σ)) : Round σ → Parser σ
  | .again state => iterate round state
  | .done state => pure state

/-- Where the first round is followed by another one, it has used up text. -/
theorem iterate_eq {round : σ → Parser (Round σ)} {state : σ}
    (onward : ∀ next rest, round state text = .ok (.again next, rest) →
      rest.length < text.length) :
    iterate round state text = (round state >>= afterRound round) text := by
  rw [iterate, bind_apply]
  cases first : round state text with
  | error failure => rfl
  | ok found =>
    obtain ⟨next, mid⟩ := found
    cases next with
    | done state => rfl
    | again state => exact if_pos (onward _ _ first)

theorem shrinks_iterate {round : σ → Parser (Round σ)} (shrinks : ∀ state, Shrinks (round state))
    (state : σ) : Shrinks (iterate round state) := by
  intro text
  induction hn : text.length using Nat.strongRecOn generalizing text state with
  | ind n ih =>
    subst hn
    intro last rest read
    obtain ⟨next, mid, first, ⟨-, rfl⟩ | ⟨shorter, read⟩⟩ := iterate_cases read
    · exact shrinks state text next rest first
    · exact (ih _ shorter next.state mid rfl last rest read).trans
        (shrinks state text next mid first)

theorem Local.iterate {round : Frame → σ → Parser (Round σ)} {I D : σ → Mode → List Char → Prop}
    (keeps : ∀ state, Local r (I state) (round · state) (KeptAt I D))
    (onward : ∀ frame : Frame, frame.room = r → ∀ state text next rest,
      round frame state text = .ok (.again next, rest) → rest.length < text.length) (state : σ) :
    Local r (I state) (fun frame => Text.Reader.iterate (round frame) state) D where
  shrinks frame room := shrinks_iterate (fun state => (keeps state).shrinks frame room) state
  reads m body := by
    induction hn : body.length using Nat.strongRecOn generalizing m body state with
    | ind n ih =>
      subst hn
      intro holds frame room last rest read
      have first := (keeps state).reads m body holds
      -- The first round in this frame tells what the first round is in any other.
      obtain ⟨next, mid, start, after⟩ :=
        exists_of_bind_ok ((iterate_eq (onward frame room state _)).symm.trans read)
      have shrinks : ∀ next, ∀ frame : Frame, frame.room = r →
          Shrinks (afterRound (round frame) next) := by
        rintro (next | last) frame room
        · exact shrinks_iterate (fun state => (keeps state).shrinks frame room) next
        · exact shrinks_pure last
      obtain ⟨mid, rfl, -⟩ := exists_close
        ((closing_suffix frame rest).trans (shrinks next frame room mid last _ after))
        ((keeps state).shrinks frame room _ next mid start)
      obtain ⟨k, -, -, -, -, -, -, reads⟩ := first frame room next mid start
      have same (other : Frame) : Text.Reader.iterate (round other) state (other.close body) =
          (round other state >>= afterRound (round other)) (other.close body) := by
        refine iterate_eq fun state' rest' found => ?_
        by_cases enough : k ≤ other.room
        · obtain ⟨rfl, rfl⟩ :=
            Prod.mk.inj (Except.ok.inj ((reads.enough other enough).symm.trans found))
          exact close_length_lt.mpr (close_length_lt.mp (onward frame room state _ _ _ start))
        · obtain ⟨stop, fails⟩ := reads.short other (Nat.lt_of_not_le enough)
          exact nomatch fails.symm.trans found
      refine LocalAt.congr (first.bind (keeps state).shrinks shrinks ?_) same frame room last rest
        read
      rintro (next | last) m' mid kept ⟨frame, room, start⟩
      · exact ih _ (close_length_lt.mp (onward frame room _ _ _ _ start)) next m' mid rfl kept
      · exact localAt_pure kept

/-- A reader as it may be used on texts shorter than so long. -/
def guarded (stuck : List Char → Failure) (p : Parser α) (length : Nat) : Parser α := fun text =>
  if text.length < length then p text else .error (stuck text)

/-- A reader that uses itself may be taken to be local there. -/
theorem Local.recursive {stuck : List Char → Failure} {step : Frame → Parser α → Parser α}
    (shrinks : ∀ frame : Frame, frame.room = r →
      Shrinks (Text.Reader.recursive stuck (step frame)))
    (keeps : ∀ self : Frame → Parser α, Local r Pre self Post →
      Local r Pre (fun frame => step frame (self frame)) Post) :
    Local r Pre (fun frame => Text.Reader.recursive stuck (step frame)) Post where
  shrinks := shrinks
  reads m body := by
    induction hn : body.length using Nat.strongRecOn generalizing m body with
    | ind n ih =>
      subst hn
      intro holds
      have inner : Local r Pre (fun frame => guarded stuck
          (Text.Reader.recursive stuck (step frame)) (frame.close body).length) Post := by
        refine ⟨fun frame room text a rest read => ?_, fun m' body' pre => ?_⟩
        · rw [guarded] at read
          split at read
          · exact shrinks frame room text a rest read
          · cases read
        · by_cases shorter : body'.length < body.length
          · exact (ih _ shorter m' body' rfl pre).congr fun frame =>
              if_pos (close_length_lt.mpr shorter)
          · intro frame _ a rest read
            exact nomatch (if_neg (mt close_length_lt.mp shorter)).symm.trans read
      refine ((keeps _ inner).reads m body holds).congr fun frame => ?_
      rw [Text.Reader.recursive]
      rfl

end Fluent.Grammar.Braces
