import Fluent.Proofs.Placeable
import Fluent.Proofs.Soundness.Pattern

/-!
# Placeables are sound

What stands between braces keeps the rules of the grammar, and the room for braces bounds what stands
inside one another.

* `Inner`, `Placed`: an expression without braces of its own, and one between braces;
* `yields_inlineExpression`, `yields_variants`: what is read with so much room for braces;
* `yields_placeable`: by induction on the room.
-/

namespace Fluent.Grammar

open Fluent.Grammar.Parser Fluent.Text.Reader

/-- What is read with so much room for braces, without braces of its own. -/
def Inner (room : Nat) (expression : Expression) : Prop :=
  (Node.expression expression).Bounded room (2 * room)

/-- What is read between braces, with so much room for them and those inside. -/
def Placed : Nat → Expression → Prop
  | 0, _ => False
  | room + 1, expression => isTermAttribute expression = false ∧
    (Node.expression expression).Bounded room (2 * room + 1)

/-- A pattern that is read with so much room for braces. -/
def InnerPattern (room : Nat) (value : Pattern) : Prop :=
  (Node.pattern value).Bounded room (2 * room)

variable {room : Nat}

theorem Placed.shown {expression : Expression} (placed : Placed room expression) :
    isTermAttribute expression = false := by
  cases room with
  | zero => exact placed.elim
  | succ room => exact placed.1

theorem Placed.inner {expression : Expression} (placed : Placed room expression) :
    Inner room expression := by
  cases room with
  | zero => exact placed.elim
  | succ room => exact placed.2.mono (Nat.le_succ room) (by omega)

theorem Placed.pattern {value : Pattern} (made : MadeOf (Placed room) value) :
    InnerPattern room value := by
  cases value with
  | text text => exact Node.bounded_text made
  | elements parts =>
    cases room with
    | zero =>
      obtain ⟨sound, placed⟩ := made
      obtain ⟨part, one, shown⟩ := List.countP_pos_iff.mp sound.placed
      cases part with
      | text text => cases shown
      | placeable expression => exact (placed expression one).elim
    | succ room => exact Node.bounded_elements made.1 fun expression part => (made.2 expression part).2

theorem Inner.of_sound {expression : Expression} (sound : (Node.expression expression).Sound)
    (single : ∀ step next, ¬(Node.expression expression).Holds step next) :
    Inner room expression :=
  Node.bounded_of_holds 0 0 sound fun step next holds => (single step next holds).elim

theorem Inner.sound {expression : Expression} (inner : Inner room expression) :
    (Node.expression expression).Sound :=
  (inner [] _ .here).1

/-! ## Inline expressions -/

theorem yields_literal (room : Nat) : Yields literal (Inner room) := by
  refine yields_bind fun text => .choice (fun _ => ?_) fun _ => .choice (fun _ => ?_) fun _ =>
    .choice (fun _ => ?_) fun _ => .choice (fun _ => ?_) fun _ => yields_fail _
  · exact yields_bind fun _ => yields_identifier.bind fun _ sound => yields_pure (.of_sound sound nofun)
  · exact yields_entryIdentifier.bind fun _ sound => yields_pure (.of_sound sound nofun)
  · exact yields_number.bind fun _ sound => yields_pure (.of_sound sound nofun)
  · exact yields_bind fun _ => yields_pure (.of_sound trivial nofun)

/-- An argument as it is read. -/
def ArgumentSound (room : Nat) (argument : Argument) : Prop :=
  Inner room argument.value ∧
    ∀ name value, argument = .named name value →
      isEntryId name.toList = true ∧ isNamedValue value = true

section

variable {placeable expression : Parser Expression}

theorem yields_argument (yields : Yields expression (Inner room)) :
    Yields (argument expression) (ArgumentSound room) := by
  refine yields.bind fun value inner => ?_
  split
  · rename_i name
    refine yields_bind fun _ => yields_bind fun _ => .choice (fun _ => ?_) fun _ => ?_
    · refine yields_bind fun _ => yields_bind fun _ => yields.bind fun value passed => ?_
      refine .choice (fun allowed => yields_pure ⟨passed, ?_⟩) fun _ => yields_fail _
      rintro _ _ ⟨⟩
      exact ⟨inner.sound, allowed⟩
    · exact yields_pure ⟨inner, nofun⟩
  · exact yields_pure ⟨inner, nofun⟩

theorem yields_argumentRound (yields : Yields expression (Inner room)) (arguments : List Argument)
    (sound : ∀ argument ∈ arguments, ArgumentSound room argument) :
    Yields (argumentRound expression arguments)
      fun next => ∀ argument ∈ next.state, ArgumentSound room argument := by
  refine yields_bind fun _ => .choice (fun _ => yields_pure sound) fun _ => ?_
  refine yields_bind fun _ => yields_bind fun _ => .choice (fun _ => yields_pure sound) fun _ => ?_
  refine (yields_argument yields).bind fun argument passed => yields_bind fun _ => ?_
  have more : ∀ one ∈ arguments ++ [argument], ArgumentSound room one := by
    intro one member
    obtain member | member := List.mem_append.mp member
    · exact sound one member
    · exact List.mem_singleton.mp member ▸ passed
  refine yields_bind fun next => ?_
  split
  · exact yields_pure more
  · exact yields_bind fun _ => yields_pure more
  · exact yields_fail _

/-- The name of a function does not start with a hyphen. -/
theorem isName_of_isFunctionName {name : String} (id : isEntryId name.toList = true)
    (function : isFunctionName name = true) : isName name.toList = true := by
  rw [isFunctionName] at function
  rw [isEntryId.eq_def] at id
  split at id
  · rename_i text
    rw [text] at function
    cases function
  · exact id

theorem yields_referenceTail (yields : Yields expression (Inner room)) {name : String}
    (id : isEntryId name.toList = true) :
    Yields (referenceTail expression name) (Inner room) := by
  refine yields_bind fun next => ?_
  split
  · exact yields_bind fun _ => yields_identifier.bind fun _ sound =>
      yields_pure (.of_sound ⟨id, sound⟩ nofun)
  · exact yields_bind fun _ => yields_variantKey.bind fun _ sound =>
      yields_pure (.of_sound ⟨id, sound⟩ nofun)
  · refine yields_bind fun _ => ?_
    refine (Yields.iterate (yields_argumentRound yields) (by nofun)).bind fun arguments sound => ?_
    refine .choice (fun function => ?_) fun _ => yields_fail _
    refine yields_bind fun _ => yields_pure (Node.bounded_call ⟨⟨?_, function⟩, ?_⟩ ?_)
    · exact isName_of_isFunctionName id function
    · exact fun name value one => (sound _ one).2 name value rfl
    · exact fun argument one => (sound argument one).1
  · exact yields_pure (.of_sound id nofun)

theorem yields_inlineExpression (yields : Yields placeable (Placed room)) :
    Yields (inlineExpression placeable) (Inner room) := by
  refine Yields.recursive fun self inner => ?_
  refine yields_bind fun next => .choice (fun _ => yields.mono fun _ => Placed.inner) fun _ => ?_
  refine (yields_literal room).bind fun found inner' => ?_
  split
  · exact yields_referenceTail inner inner'.sound
  · exact yields_pure inner'

/-! ## Variants -/

/-- Variants as they are read, with the position of the last one that is starred. -/
structure VariantsSound (room : Nat) (read : List Variant × Option Nat) : Prop where
  standard : ∀ position, read.2 = some position → position < read.1.length
  keys : ∀ member ∈ read.1, member.key.WellFormed
  values : ∀ member ∈ read.1, InnerPattern room member.value

theorem VariantsSound.snoc {read : List Variant × Option Nat} (sound : VariantsSound room read)
    {key : VariantKey} {value : Pattern} (hk : key.WellFormed) (hv : InnerPattern room value)
    (starred : Prop) [Decidable starred] : VariantsSound room
      (read.1 ++ [.mk key value], if starred then some read.1.length else read.2) := by
  constructor
  case standard =>
    intro position hp
    rw [List.length_append, List.length_singleton]
    split at hp
    · obtain rfl := Option.some_inj.mp hp
      exact Nat.lt_succ_self _
    · exact Nat.lt_succ_of_lt (sound.standard position hp)
  case keys =>
    intro member one
    obtain one | one := List.mem_append.mp one
    · exact sound.keys member one
    · exact List.mem_singleton.mp one ▸ hk
  case values =>
    intro member one
    obtain one | one := List.mem_append.mp one
    · exact sound.values member one
    · exact List.mem_singleton.mp one ▸ hv

theorem yields_variantRound (yields : Yields placeable (Placed room))
    (read : List Variant × Option Nat) (sound : VariantsSound room read) :
    Yields (variantRound placeable read) fun next => VariantsSound room next.state := by
  refine yields_bind fun text => .choice (fun _ => ?_) fun _ => yields_pure sound
  refine yields_bind fun _ => yields_bind fun _ => yields_variantKey.bind fun key hk => ?_
  refine yields_bind fun _ => (yields_pattern yields fun _ => Placed.shown).bind fun value made => ?_
  cases value with
  | none => exact yields_fail _
  | some value =>
    exact yields_bind fun _ => yields_pure (sound.snoc hk (Placed.pattern (made value rfl)) _)

theorem yields_variants (yields : Yields placeable (Placed room)) :
    Yields (variants placeable) (VariantsSound room) :=
  .iterate (yields_variantRound yields) ⟨nofun, nofun, nofun⟩

theorem yields_variantRound_ne_nil (read : List Variant × Option Nat) (some : read.1 ≠ []) :
    Yields (variantRound placeable read) fun next => next.state.1 ≠ [] := by
  refine yields_bind fun text => .choice (fun _ => ?_) fun _ => yields_pure some
  refine yields_bind fun _ => yields_bind fun _ => yields_bind fun key => yields_bind fun _ =>
    yields_bind fun value => ?_
  cases value with
  | none => exact yields_fail _
  | some value => exact yields_bind fun _ => yields_pure (List.append_ne_nil_of_right_ne_nil _ nofun)

theorem yields_variantAfter_ne_nil (read : List Variant × Option Nat) (starred : Bool) :
    Yields (variantAfter placeable read starred) fun next => next.state.1 ≠ [] :=
  yields_bind fun _ => yields_pure (List.append_ne_nil_of_right_ne_nil _ nofun)

/-- Where a star or a bracket is next there is a variant, as no brace can be closed in front of a
bracket. -/
theorem variants_ne_nil {text mid rest : List Char} {read : List Variant × Option Nat}
    (starts : text.head? = some '*' ∨ text.head? = some '[')
    (hr : variants placeable text = .ok (read, mid))
    (closed : closePlaceable mid = .ok ((), rest)) : read.1 ≠ [] := by
  obtain starred | bracket := starts
  · obtain ⟨text, rfl⟩ := List.head?_eq_some_iff.mp starred
    refine iterate_yields (I := fun read => read.1 ≠ []) yields_variantRound_ne_nil ?_ hr
    rw [variantRound_starred]
    exact yields_variantAfter_ne_nil _ true text
  · obtain ⟨text, rfl⟩ := List.head?_eq_some_iff.mp bracket
    by_cases double : text.head? = some '['
    · rw [variants, iterate, variantRound_end _ (by simp) fun _ h => (List.cons.inj h).2 ▸ double] at hr
      obtain ⟨-, rfl⟩ := Prod.mk.inj (Except.ok.inj hr)
      cases closed
    · refine iterate_yields (I := fun read => read.1 ≠ []) yields_variantRound_ne_nil ?_ hr
      rw [variantRound_open _ double]
      exact yields_variantAfter_ne_nil _ false _

/-! ## Placeables -/

theorem VariantsSound.wellFormed {read : List Variant × Option Nat}
    (sound : VariantsSound room read) (some : read.1 ≠ []) :
    VariantsWellFormed read.1 read.2 :=
  ⟨some, sound.standard, sound.keys⟩

theorem chooses_of_selectorFault? {selector : Expression} (h : selectorFault? selector = none) :
    selector.Chooses := by
  cases selector with
  | attributeRef id name =>
    rw [selectorFault?] at h
    split at h
    · rename_i term
      exact if_pos (eq_of_beq term)
    · cases h
  | _ => trivial

theorem yields_selectMembers (yields : Yields placeable (Placed room)) {selector : Expression}
    (inner : Inner room selector) (chooses : selector.Chooses) :
    Yields (selectMembers placeable selector) (Placed (room + 1)) := by
  refine (yields_variants yields).bind fun read sound => ?_
  refine .choice (fun _ => yields_fail _) fun some => yields_bind fun _ => yields_pure ?_
  have full : read.1 ≠ [] := fun empty => some (List.isEmpty_iff.mpr empty)
  exact ⟨rfl, Node.bounded_select (sound.wellFormed full) chooses inner sound.values⟩

theorem yields_selectTail (yields : Yields placeable (Placed room)) {selector : Expression}
    (inner : Inner room selector) (chooses : selector.Chooses) :
    Yields (selectTail placeable selector) (Placed (room + 1)) := by
  have members (next : Option Char) : Yields (do
      if next = some '\n' then
        skipBlank
        selectMembers placeable selector
      else fail .variantsOnNewLine : Parser Expression) (Placed (room + 1)) :=
    .choice (fun _ => yields_bind fun _ => yields_selectMembers yields inner chooses)
      fun _ => yields_fail _
  refine yields_bind fun _ => yields_bind fun text => ?_
  split
  · exact yields_bind fun _ => yields_bind members
  · exact yields_bind members

theorem yields_placeableTail (yields : Yields placeable (Placed room)) {expression : Expression}
    (inner : Inner room expression) :
    Yields (placeableTail placeable expression) (Placed (room + 1)) := by
  refine yields_bind fun _ => yields_bind fun text => ?_
  split
  · refine .choice (fun _ => yields_fail _) fun shown => yields_bind fun _ => yields_pure ?_
    exact ⟨Bool.eq_false_iff.mpr shown, inner.mono (Nat.le_refl _) (Nat.le_succ _)⟩
  · split
    · exact yields_fail _
    · exact yields_bind fun _ => yields_selectTail yields inner (chooses_of_selectorFault? ‹_›)
  · exact yields_fail _

/-- What is read after an opening brace, one brace further out. -/
theorem yields_placeableBody (yields : Yields placeable (Placed room)) :
    Yields (placeableBody placeable) (Placed (room + 1)) := by
  refine yields_bind fun _ text expression rest read => ?_
  rw [get_bind_apply, choice_apply] at read
  split at read
  · rename_i starts
    rw [startsVariantList_eq rfl, Bool.or_eq_true, Bool.and_eq_true] at starts
    rw [skipBlank_bind_apply] at read
    obtain ⟨found, mid, hr, read⟩ := exists_of_bind_ok read
    obtain ⟨_, rest', closed, read⟩ := exists_of_bind_ok read
    obtain ⟨rfl, -⟩ := Prod.mk.inj (Except.ok.inj read)
    have sound := yields_variants yields _ _ _ hr
    have some := variants_ne_nil (starts.imp eq_of_beq fun h => eq_of_beq h.1) hr closed
    exact ⟨rfl, Node.bounded_variantList (sound.wellFormed some) sound.values⟩
  · exact (yields_bind fun _ => (yields_inlineExpression yields).bind fun _ inner =>
      yields_placeableTail yields inner) text expression rest read

end

/-- What is read with so much room for braces keeps the rules of the grammar and goes no deeper than
that. -/
theorem yields_placeable (room : Nat) : Yields (placeable room) (Placed room) := by
  induction room with
  | zero => exact yields_fail _
  | succ room ih => exact yields_placeableBody ih

theorem yields_innerPattern (room : Nat) :
    Yields (pattern (placeable room)) fun read =>
      ∀ value, read = some value → InnerPattern room value :=
  (yields_pattern (yields_placeable room) fun _ => Placed.shown).mono
    fun _ made value read => Placed.pattern (made value read)

end Fluent.Grammar
