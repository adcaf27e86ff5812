import Mathlib.Data.List.Infix
import Mathlib.Data.List.TakeWhile
import Fluent.Proofs.Nesting
import Fluent.Proofs.Soundness.Basic

/-!
# Carriage returns that only end lines

Where carriage returns stand in front of line feeds only, and none is escaped by its code, no reader
puts one into a text.

* `ReturnsEndLines`, `EscapesReturn`: the two ways for a carriage return to get into a text;
* `Tame`: neither of them is open, here and at all places that readers go on from;
* `Node.Returnless`: no text inside a node has a carriage return;
* `TamelyAt`, `Tamely`: what a reader finds in tame texts, and that what it leaves is tame;
* `Tamely.iterate`, `Tamely.recursive`: what each round keeps, and what a reader may take for
  granted of itself.
-/

namespace Fluent

/-- Each carriage return stands in front of a line feed or at the end of the text. -/
def ReturnsEndLines (text : List Char) : Prop :=
  ∀ rest, '\r' :: rest <:+ text → rest = [] ∨ rest.head? = some '\n'

/-- Somewhere in the text a carriage return is escaped by its code, with the last digit in either
case. A backslash takes the character behind it along, so that none that is escaped itself starts an
escape. -/
inductive EscapesReturn : List Char → Prop
  | here {digit : Char} {rest : List Char} (either : digit = 'd' ∨ digit = 'D') :
    EscapesReturn ('\\' :: 'u' :: '0' :: '0' :: '0' :: digit :: rest)
  | escaped {c : Char} {rest : List Char} (later : EscapesReturn rest) :
    EscapesReturn ('\\' :: c :: rest)
  | plain {c : Char} {rest : List Char} (other : c ≠ '\\') (later : EscapesReturn rest) :
    EscapesReturn (c :: rest)

/-- A text with no carriage return but at the ends of lines, and with none escaped. -/
structure Tame (text : List Char) : Prop where
  ends : ReturnsEndLines text
  unescaped : ¬EscapesReturn text

variable {text front rest : List Char} {c : Char}

theorem returnsEndLines_iff : ReturnsEndLines text ↔ ∀ after ∈ text.tails,
    after.head? = some '\r' → after.tail = [] ∨ after.tail.head? = some '\n' := by
  constructor
  · intro ends after member head
    obtain ⟨rest, rfl⟩ := List.head?_eq_some_iff.mp head
    exact ends rest ((List.mem_tails _ _).mp member)
  · exact fun all rest hs => all _ ((List.mem_tails _ _).mpr hs) rfl

instance : Decidable (ReturnsEndLines text) := decidable_of_iff _ returnsEndLines_iff.symm

/-- A character that is escaped is passed over with its backslash. -/
theorem escapesReturn_cons_cons {next : Char} : EscapesReturn (c :: next :: rest) ↔
    if c = '\\' then
      next :: rest.take 4 ∈ [['u', '0', '0', '0', 'd'], ['u', '0', '0', '0', 'D']] ∨
        EscapesReturn rest
    else EscapesReturn (next :: rest) := by
  split
  · subst c
    constructor
    · rintro (either | later | ⟨other, -⟩)
      · exact .inl (by simpa using either)
      · exact .inr later
      · exact absurd rfl other
    · rintro (here | later)
      · obtain ⟨rfl, digit, either, first⟩ : next = 'u' ∧ ∃ digit, (digit = 'd' ∨ digit = 'D') ∧
            rest.take 4 = ['0', '0', '0', digit] := by
          simpa [and_or_left] using here
        rw [← List.take_append_drop 4 rest, first]
        exact .here either
      · exact .escaped later
  · constructor
    · rintro (_ | _ | ⟨-, later⟩)
      · contradiction
      · contradiction
      · exact later
    · exact .plain ‹_›

instance decidableEscapesReturn : (text : List Char) → Decidable (EscapesReturn text)
  | [] => isFalse nofun
  | [_] => isFalse fun
    | .plain _ later => nomatch later
  | _ :: next :: rest =>
    have := decidableEscapesReturn rest
    have := decidableEscapesReturn (next :: rest)
    decidable_of_iff _ escapesReturn_cons_cons.symm

theorem ReturnsEndLines.suffix (ends : ReturnsEndLines text) (hs : rest <:+ text) :
    ReturnsEndLines rest :=
  fun after ha => ends after (ha.trans hs)

/-- A carriage return on a line is the last character of the line. -/
theorem ReturnsEndLines.line (ends : ReturnsEndLines (front ++ rest)) (part : '\n' ∉ front) :
    '\r' ∉ front ∨
      ∃ line, front = line ++ ['\r'] ∧ '\r' ∉ line ∧ (rest = [] ∨ rest.head? = some '\n') := by
  induction front with
  | nil => exact .inl nofun
  | cons c front ih =>
    rw [List.mem_cons, not_or] at part
    by_cases return_ : c = '\r'
    · subst return_
      have last := ends (front ++ rest) (List.suffix_refl _)
      cases front with
      | nil => exact .inr ⟨[], rfl, nofun, last⟩
      | cons next front => simp_all
    · obtain none | ⟨line, rfl, none, last⟩ := ih (ends.suffix (List.suffix_cons _ _)) part.2
      · exact .inl (by simp [Ne.symm return_, none])
      · exact .inr ⟨c :: line, rfl, by simp [Ne.symm return_, none], last⟩

/-- A carriage return in a run of characters of one line is the last one of the run, and the line
ends there. -/
theorem ReturnsEndLines.takeWhile (ends : ReturnsEndLines text) {p : Char → Bool}
    (stops : p '\n' = false) : '\r' ∉ text.takeWhile p ∨
      ∃ line, text.takeWhile p = line ++ ['\r'] ∧ '\r' ∉ line ∧
        (text.dropWhile p = [] ∨ (text.dropWhile p).head? = some '\n') := by
  rw [← List.takeWhile_append_dropWhile (p := p) (l := text)] at ends
  refine ends.line fun member => ?_
  simpa [stops] using List.mem_takeWhile_imp member

namespace Tame

theorem nil : Tame [] where
  ends _ h := nomatch List.suffix_nil.mp h
  unescaped h := nomatch h

theorem tail (tame : Tame (c :: text)) (other : c ≠ '\\') : Tame text where
  ends := tame.ends.suffix (List.suffix_cons _ _)
  unescaped later := tame.unescaped (.plain other later)

/-- Behind an escaped character. -/
theorem escaped (tame : Tame ('\\' :: c :: text)) : Tame text where
  ends := tame.ends.suffix ((List.suffix_cons _ _).trans (List.suffix_cons _ _))
  unescaped later := tame.unescaped (.escaped later)

theorem append (front : List Char) (tame : Tame (front ++ rest)) (plain : '\\' ∉ front) :
    Tame rest := by
  induction front with
  | nil => exact tame
  | cons c front ih =>
    rw [List.mem_cons, not_or] at plain
    exact ih (tame.tail (Ne.symm plain.1)) plain.2

theorem dropWhile (tame : Tame text) {p : Char → Bool} (stops : p '\\' = false) :
    Tame (text.dropWhile p) := by
  refine append (text.takeWhile p) (by rwa [List.takeWhile_append_dropWhile]) fun member => ?_
  exact absurd (List.mem_takeWhile_imp member) (by simp [stops])

/-- A run that ends on its line, in front of another character, holds no carriage return. -/
theorem takeWhile (tame : Tame text) {p : Char → Bool} (stops : p '\n' = false)
    (stop : text.dropWhile p = c :: rest) (other : c ≠ '\n') : '\r' ∉ text.takeWhile p := by
  obtain none | ⟨line, -, -, last⟩ := tame.ends.takeWhile stops
  · exact none
  · simp [stop, other] at last

end Tame

/-- No escape reaches over the end of a line. -/
theorem EscapesReturn.behind (later : EscapesReturn rest) (front : List Char) :
    EscapesReturn (front ++ '\n' :: rest) := by
  have lineFeed : EscapesReturn ('\n' :: rest) := .plain (by decide) later
  -- A backslash goes together with the character behind it.
  match front with
  | [] => exact lineFeed
  | [c] =>
    by_cases backslash : c = '\\'
    · exact backslash ▸ .escaped later
    · exact .plain backslash lineFeed
  | c :: next :: front =>
    by_cases backslash : c = '\\'
    · exact backslash ▸ .escaped (behind later front)
    · exact .plain backslash (behind later (next :: front))

theorem Tame.behind (front : List Char) (tame : Tame (front ++ '\n' :: rest)) : Tame rest where
  ends := tame.ends.suffix ⟨front ++ ['\n'], by simp⟩
  unescaped later := tame.unescaped (later.behind front)

/-! ## Nodes without carriage returns -/

/-- The texts of a node, without those of what stands inside it. -/
def Node.texts : Node → List String
  | .pattern (.text value) => [value]
  | .pattern (.elements parts) => parts.filterMap fun
    | .text value => some value
    | .placeable _ => none
  | .expression (.string value) => [value]
  | .expression _ => []

/-- No text of a node or of what stands inside it has a carriage return. -/
def Node.Returnless (node : Node) : Prop :=
  ∀ steps last, node.Leads steps last → ∀ text ∈ last.texts, '\r' ∉ text.toList

theorem Node.returnless_of_holds {node : Node} (own : ∀ text ∈ node.texts, '\r' ∉ text.toList)
    (inner : ∀ step next, node.Holds step next → next.Returnless) : node.Returnless := by
  intro steps last leads
  cases leads with
  | here => exact own
  | inside holds leads => exact inner _ _ holds _ last leads

theorem Node.returnless_text {value : String} (none : '\r' ∉ value.toList) :
    (Node.pattern (.text value)).Returnless :=
  returnless_of_holds (by simpa [texts] using none) fun _ _ holds => nomatch holds

/-- No text of a part of a pattern has a carriage return. -/
def Element.Returnless : Element → Prop
  | .text value => '\r' ∉ value.toList
  | .placeable expression => (Node.expression expression).Returnless

theorem Node.returnless_elements {parts : List Element}
    (inner : ∀ part ∈ parts, part.Returnless) : (Node.pattern (.elements parts)).Returnless := by
  refine returnless_of_holds (fun text shown => ?_) fun step next holds => ?_
  · obtain ⟨part, one, same⟩ := List.mem_filterMap.mp shown
    cases part with
    | text value => exact Option.some_inj.mp same ▸ inner _ one
    | placeable expression => cases same
  · cases holds with
    | placeable part => exact inner _ part

namespace Grammar

open Fluent.Grammar.Parser Fluent.Text.Reader

/-! ## Readers of tame texts -/

/-- On tame texts with this character in front a reader finds what has the property, and leaves a
tame text. -/
def TamelyAt {α : Type} (next : Option Char) (p : Parser α) (Q : α → Prop) : Prop :=
  ∀ text, Tame text → text.head? = next → ∀ a rest, p text = .ok (a, rest) → Q a ∧ Tame rest

/-- On tame texts a reader finds what has the property, and leaves a tame text. -/
def Tamely {α : Type} (p : Parser α) (Q : α → Prop) : Prop :=
  ∀ next, TamelyAt next p Q

section

variable {α β σ : Type} {next : Option Char} {p q : Parser α} {Q R : α → Prop} {S : β → Prop}

theorem Tamely.apply (tamely : Tamely p Q) {text rest : List Char} (tame : Tame text) {a : α}
    (read : p text = .ok (a, rest)) : Q a ∧ Tame rest :=
  tamely _ text tame rfl a rest read

theorem tamelyAt_pure {a : α} (h : Q a) : TamelyAt next (pure a) Q := by
  intro text tame _ b rest read
  obtain ⟨rfl, rfl⟩ := Prod.mk.inj (Except.ok.inj read)
  exact ⟨h, tame⟩

theorem tamelyAt_fail (fault : Fault) : TamelyAt next (fail fault : Parser α) Q :=
  fun _ _ _ _ _ read => nomatch read

theorem TamelyAt.bind {k : α → Parser β} (tamely : TamelyAt next p Q)
    (after : ∀ a, Q a → Tamely (k a) S) : TamelyAt next (p >>= k) S := by
  intro text tame head b rest read
  obtain ⟨a, mid, first, read⟩ := exists_of_bind_ok read
  obtain ⟨holds, tame⟩ := tamely text tame head a mid first
  exact (after a holds).apply tame read

theorem TamelyAt.map {f : α → β} (tamely : TamelyAt next p Q) (h : ∀ a, Q a → S (f a)) :
    TamelyAt next (f <$> p) S := by
  rw [map_eq_pure_bind]
  exact tamely.bind fun a ha _ => tamelyAt_pure (h a ha)

theorem TamelyAt.choice {P : Prop} [Decidable P] (first : P → TamelyAt next p Q)
    (second : ¬P → TamelyAt next q Q) : TamelyAt next (if P then p else q) Q := by
  split
  · exact first ‹_›
  · exact second ‹_›

theorem tamelyAt_get {k : List Char → Parser β}
    (after : ∀ text, Tame text → text.head? = next → TamelyAt next (k text) S) :
    TamelyAt next (get >>= k) S :=
  fun text tame head => after text tame head text tame head

theorem tamelyAt_set {k : PUnit → Parser β} {rest : List Char} (tame : Tame rest)
    (after : Tamely (k ⟨⟩) S) : TamelyAt next (set rest >>= k) S :=
  fun _ _ _ _ _ read => after.apply tame read

theorem tamelyAt_peek {k : Option Char → Parser β} (after : TamelyAt next (k next) S) :
    TamelyAt next (peek >>= k) S := by
  intro text tame head b rest read
  rw [peek_bind_apply, head] at read
  exact after text tame head b rest read

theorem tamelyAt_advance {k : Unit → Parser β} (other : next ≠ some '\\')
    (after : Tamely (k ()) S) : TamelyAt next (advance >>= k) S := by
  intro text tame head b rest read
  rw [advance_bind_apply] at read
  cases text with
  | nil => exact after.apply .nil read
  | cons c text => exact after.apply (tame.tail fun same => other (by rw [← head, same]; rfl)) read

theorem tamelyAt_skipWhile {k : Unit → Parser β} {p : Char → Bool} (stops : p '\\' = false)
    (after : Tamely (k ()) S) : TamelyAt next (skipWhile p >>= k) S :=
  fun _ tame _ _ _ read => after.apply (tame.dropWhile stops) read

theorem tamelyAt_takeWhile {k : List Char → Parser β} {p : Char → Bool} (stops : p '\\' = false)
    (after : ∀ run, Tamely (k run) S) : TamelyAt next (takeWhile p >>= k) S :=
  fun _ tame _ _ _ read => (after _).apply (tame.dropWhile stops) read

theorem tamely_takeOne {c : Char} (other : c ≠ '\\') : Tamely (takeOne c) fun _ => True := by
  refine fun next => tamelyAt_peek (.choice (fun here => ?_) fun _ => tamelyAt_pure trivial)
  exact tamelyAt_advance (by simpa [here] using other) fun _ => tamelyAt_pure trivial

theorem tamely_expect {c : Char} (other : c ≠ '\\') : Tamely (expect c) fun _ => True := by
  intro next text tame head a rest read
  rw [expect_apply] at read
  split at read
  · obtain ⟨-, rfl⟩ := Prod.mk.inj (Except.ok.inj read)
    obtain ⟨text, rfl⟩ := List.head?_eq_some_iff.mp ‹_›
    exact ⟨trivial, tame.tail other⟩
  · cases read

/-- What holds after a round, whether it is followed by another one or the last. -/
def Kept (I D : σ → Prop) : Round σ → Prop
  | .again state => I state
  | .done state => D state

@[simp] theorem kept_again {I D : σ → Prop} {state : σ} :
    Kept I D (.again state) ↔ I state := .rfl

@[simp] theorem kept_done {I D : σ → Prop} {state : σ} : Kept I D (.done state) ↔ D state := .rfl

/-- What every round keeps holds in the end, or something weaker that the last round keeps. -/
theorem Tamely.iterate {round : σ → Parser (Round σ)} {I D : σ → Prop}
    (keeps : ∀ state, I state → Tamely (round state) (Kept I D))
    (weaker : ∀ state, I state → D state) {state : σ} (holds : I state) :
    Tamely (Text.Reader.iterate round state) D := by
  intro next text tame head
  induction hn : text.length using Nat.strongRecOn generalizing text state next with
  | ind n ih =>
    subst hn
    intro last rest read
    rw [Text.Reader.iterate] at read
    cases first : round state text with
    | error failure => rw [first] at read; cases read
    | ok found =>
      obtain ⟨after, mid⟩ := found
      rw [first] at read
      obtain ⟨held, tame⟩ := (keeps state holds).apply tame first
      cases after with
      | done state =>
        obtain ⟨rfl, rfl⟩ := Prod.mk.inj (Except.ok.inj read)
        exact ⟨held, tame⟩
      | again state =>
        dsimp only at read
        split at read
        · exact ih _ ‹_› held mid.head? mid tame rfl rfl last rest read
        · obtain ⟨rfl, rfl⟩ := Prod.mk.inj (Except.ok.inj read)
          exact ⟨weaker state held, tame⟩

theorem Tamely.recursive {stuck : List Char → Failure} {step : Parser α → Parser α}
    (keeps : ∀ self, Tamely self Q → Tamely (step self) Q) :
    Tamely (Text.Reader.recursive stuck step) Q := by
  intro next text
  induction hn : text.length using Nat.strongRecOn generalizing next text with
  | ind n ih =>
    subst hn
    rw [Text.Reader.recursive]
    refine keeps _ (fun next rest tame head a last read => ?_) next text
    split at read
    · exact ih _ ‹_› next rest rfl tame head a last read
    · cases read

end

end Grammar

end Fluent
