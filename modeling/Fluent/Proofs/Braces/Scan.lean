import Fluent.Grammar.Pattern

/-!
# How deep braces nest

The braces of a text pair up when it is scanned character by character. What a brace means depends
on where it stands: between braces there is code, in which quoted strings and keys stand out; behind
the key of a variant there is text, in which an opening brace opens and a closing one does not, up
to a line that ends the variant.

* `Mode.move`: what a character does where it stands;
* `nesting`: how deep the braces of a text nest that is one pair of them and what is inside;
* `Walks`: what scanning a run of characters comes to, whatever stands around it;
* `nesting_eq`, `eq_nil_of_nesting`: where a pair of braces is over;
* `nesting_wrap`: one more pair of braces.
-/

namespace Fluent.Grammar.Braces

/-- What stands at a place inside braces. -/
inductive Mode where
  /-- Between braces; `named` behind a character of a name. -/
  | code (named : Bool)
  /-- Inside a quoted string. -/
  | string
  /-- Behind a backslash. -/
  | escape (inString : Bool)
  /-- Inside a key, of a reference or of a variant. -/
  | key (ofReference : Bool)
  /-- Behind the key of a variant, as long as all is blank. -/
  | value
  /-- In the text of a variant. -/
  | text
  /-- At the start of a line of a variant, as long as all is blank. `first` if all lines of the
  variant were blank so far; `indented` if the line starts with a space. -/
  | line (first : Bool) (indented : Option Bool)
  /-- Behind a carriage return there. -/
  | lineReturn (first indented : Bool)
  deriving DecidableEq, Repr

/-- What a character does: it stays between the same braces, opens a pair or closes one. -/
inductive Move where
  | stay (mode : Mode)
  | opens (mode : Mode)
  | closes
  deriving DecidableEq, Repr

/-- Whether a variant ends in front of an indented line that starts with the character. One that is
blank up to there ends in front of an attribute only. -/
def endsLine (first : Bool) (c : Char) : Bool := if first then c == '.' else endsPattern c

/-- A character of code. A bracket belongs to the name in front of it, or else to a variant. An
equals sign has no place there. -/
def codeMove (named : Bool) (c : Char) : Option Move :=
  if c = '{' then some (.opens (.code false))
  else if c = '}' then some .closes
  else if c = '"' then some (.stay .string)
  else if c = '[' then some (.stay (.key named))
  else if c = '=' then none
  else some (.stay (.code (isIdentifierChar c)))

/-- A character of text. -/
def textMove (c : Char) : Move :=
  if c = '{' then .opens .text
  else if c = '\\' then .stay (.escape false)
  else if c = '\n' then .stay (.line false none)
  else .stay .text

/-- What a character does in front of which the mode is as told. -/
def Mode.move : Mode → Char → Option Move
  | .code named, c => codeMove named c
  | .string, c =>
    if c = '"' then some (.stay (.code false))
    else if c = '\\' then some (.stay (.escape true))
    else if c = '\n' then none
    else some (.stay .string)
  | .escape inString, c =>
    if c = '\n' then none else some (.stay (if inString then .string else .text))
  | .key ofReference, c =>
    if c = ']' then some (.stay (if ofReference then .code false else .value))
    else if c = '\n' then none
    else some (.stay (.key ofReference))
  | .text, c => some (textMove c)
  | .value, c =>
    if c = '\n' then some (.stay (.line true none))
    else if Text.isBlank c then some (.stay .value)
    else some (textMove c)
  | .line first indented, c =>
    if c = '\n' then some (.stay (.line first none))
    else if c = '\r' then some (.stay (.lineReturn first (indented.getD false)))
    else if Text.isInlineBlank c then some (.stay (.line first (indented.getD (c = ' '))))
    else if indented.getD false && !endsLine first c then some (textMove c)
    else codeMove false c
  | .lineReturn first indented, c =>
    if c = '\n' then some (.stay (.line first none))
    else if indented then some (textMove c)
    else codeMove false c

/-- The modes of the braces that are open, the innermost one first, after a move. -/
def Move.apply (outer : List Mode) : Move → List Mode
  | .stay mode => mode :: outer
  | .opens mode => .code false :: mode :: outer
  | .closes => outer

/-- The deepest nesting so far and the modes of the braces that are open. -/
structure Scan where
  depth : Nat
  modes : List Mode
  deriving DecidableEq, Repr

/-- Scans one more character, which is inside a pair of braces. -/
def Scan.step (scan : Scan) (c : Char) : Option Scan :=
  match scan.modes with
  | [] => none
  | mode :: outer =>
    (mode.move c).map fun move =>
      ⟨max scan.depth (move.apply outer).length, move.apply outer⟩

/-- Scans a run of characters. -/
def Scan.run (scan : Scan) (text : List Char) : Option Scan := text.foldlM Scan.step scan

/-- How deep braces nest in a text that is one pair of braces and what is inside. -/
def nesting : List Char → Option Nat
  | '{' :: text =>
    match Scan.run ⟨1, [.code false]⟩ text with
    | some ⟨depth, []⟩ => some depth
    | _ => none
  | _ => none

example : nesting "\x7b $x -> \n *[a] \x7d \x7b \"\x7d\" \x7d \n \x7d".toList = some 2 := by decide

variable {m m' : Mode} {ms : List Mode} {k k' : Nat} {run run' text : List Char} {c : Char}

theorem Scan.run_append (scan : Scan) (run text : List Char) :
    scan.run (run ++ text) = (scan.run run).bind (·.run text) :=
  List.foldlM_append

theorem Scan.run_cons (depth : Nat) (m : Mode) (outer : List Mode) (c : Char) (text : List Char) :
    Scan.run ⟨depth, m :: outer⟩ (c :: text) = (m.move c).bind fun move =>
      Scan.run ⟨max depth (move.apply outer).length, move.apply outer⟩ text := by
  change ((m.move c).map _).bind _ = _
  rw [Option.bind_map]
  rfl

/-! ## Runs of characters -/

/-- Scanning a run opens no more than `k` pairs of braces inside one another and ends with `ms` in
the place of `m`, whatever is open around it. -/
def Walks (k : Nat) (m : Mode) (run : List Char) (ms : List Mode) : Prop :=
  ∀ depth outer, outer.length < depth →
    Scan.run ⟨depth, m :: outer⟩ run = some ⟨max depth (outer.length + 1 + k), ms ++ outer⟩

theorem walks_nil : Walks 0 m [] [m] := by
  intro depth outer deep
  rw [Nat.add_zero, Nat.max_eq_left deep]
  rfl

theorem Walks.append (first : Walks k m run [m']) (next : Walks k' m' run' ms) :
    Walks (max k k') m (run ++ run') ms := by
  intro depth outer deep
  have deep' : outer.length < max depth (outer.length + 1 + k) := by omega
  have depths : max (max depth (outer.length + 1 + k)) (outer.length + 1 + k') =
      max depth (outer.length + 1 + max k k') := by omega
  rw [Scan.run_append, first depth outer deep, Option.bind_some]
  exact (next _ outer deep').trans (by rw [depths])

theorem Walks.of_move (walks : Walks k m (c :: run) ms) (same : m'.move c = m.move c) :
    Walks k m' (c :: run) ms := by
  intro depth outer deep
  rw [Scan.run_cons, same, ← Scan.run_cons]
  exact walks depth outer deep

theorem walks_cons_stay (move : m.move c = some (.stay m')) :
    Walks k m (c :: run) ms ↔ Walks k m' run ms := by
  refine forall_congr' fun depth => forall_congr' fun outer => imp_congr_right fun deep => ?_
  have same : max depth (m' :: outer).length = depth := Nat.max_eq_left deep
  rw [Scan.run_cons, move, Option.bind_some, Move.apply, same]

theorem walks_stay (move : m.move c = some (.stay m')) : Walks 0 m [c] [m'] := by
  intro depth outer deep
  rw [Scan.run_cons, move]
  rfl

theorem walks_closes (move : m.move c = some .closes) : Walks 0 m [c] [] := by
  intro depth outer deep
  have same : max depth outer.length = max depth (outer.length + 1 + 0) := by omega
  rw [Scan.run_cons, move]
  exact congrArg (fun depth => some (Scan.mk depth outer)) same

/-- What is inside a pair of braces nests one deeper with them. -/
theorem walks_opens (move : m.move c = some (.opens m')) (inner : Walks k (.code false) run []) :
    Walks (k + 1) m (c :: run) [m'] := by
  intro depth outer deep
  have deep' : (m' :: outer).length < max depth (outer.length + 2) := by
    rw [List.length_cons]
    omega
  have depths : max (max depth (outer.length + 2)) ((m' :: outer).length + 1 + k) =
      max depth (outer.length + 1 + (k + 1)) := by
    rw [List.length_cons]
    omega
  rw [Scan.run_cons, move]
  exact (inner _ (m' :: outer) deep').trans (by rw [depths]; rfl)

/-- A run of characters each of which keeps the mode among some. -/
theorem walks_run {M : Mode → Prop} (kept : ∀ c ∈ run, ∀ m, M m →
    ∃ m', M m' ∧ m.move c = some (.stay m')) (holds : M m) : ∃ m', M m' ∧ Walks 0 m run [m'] := by
  induction run generalizing m with
  | nil => exact ⟨m, holds, walks_nil⟩
  | cons c run ih =>
    obtain ⟨next, holds, move⟩ := kept c List.mem_cons_self m holds
    obtain ⟨last, holds, walks⟩ := ih (fun c member => kept c (List.mem_cons_of_mem _ member)) holds
    exact ⟨last, holds, (walks_stay move).append walks⟩

/-! ## Pairs of braces -/

theorem nesting_eq (walks : Walks k (.code false) text []) :
    nesting ('{' :: text) = some (k + 1) := by
  rw [nesting, walks 1 [] Nat.one_pos]
  simp [Nat.add_comm]

theorem nesting_eq_some {n : Nat} :
    nesting ('{' :: text) = some n ↔ Scan.run ⟨1, [.code false]⟩ text = some ⟨n, []⟩ := by
  rw [nesting]
  split
  · rename_i depth scanned
    simp [scanned]
  · rename_i other
    refine iff_of_false nofun fun scanned => other n scanned

/-- A pair of braces is over where its closing one is. -/
theorem eq_nil_of_nesting {n n' : Nat} (front : nesting ('{' :: run) = some n)
    (whole : nesting ('{' :: (run ++ text)) = some n') : text = [] := by
  cases text with
  | nil => rfl
  | cons c text =>
    rw [nesting_eq_some] at front whole
    rw [Scan.run_append, front] at whole
    cases whole

theorem nesting_wrap (walks : Walks k (.code false) text []) :
    Walks (k + 1) (.code false) ('{' :: (text ++ ['}'])) [] :=
  (walks_opens rfl walks).append (walks_closes rfl)

end Fluent.Grammar.Braces
