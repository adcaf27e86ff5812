import Fluent.Grammar.Fault
import Fluent.Text.Reader

/-!
# Cursors

A cursor reads a text by its bytes. It stands at an offset, looks at the bytes from there on, and
takes the parts of the text between offsets that it remembers. A part of the text has to start and
end between characters, and a byte that is asked for has to be there; a reading that asks for
anything else crashes. It also crashes when it goes on for another round without having moved.

* `slice`, `byteSlice`, `byteBefore`: what a reading can crash on;
* `fail`: stops with a fault and its place, which is counted in bytes;
* `iterate`, `recursive`: repetition, as for readers.
-/

namespace Fluent

open Grammar (Fault ParseError)
open Text.Reader (Round)

/-- What a reading asked for in vain: a part of the text, bytes between two offsets, the byte in
front of an offset, or another round at an offset from which it had not moved. -/
inductive Crash where
  | slice (start stop : Nat)
  | bytes (start stop : Nat)
  | byteBefore (offset : Nat)
  | stuck (offset : Nat)
  deriving DecidableEq, Repr

/-- How a reading stops before its end: with an error, the cursor being left where it is, or by a
crash. -/
inductive Halt where
  | failed (error : ParseError) (offset : Nat)
  | crashed (crash : Crash)
  deriving DecidableEq, Repr

/-- A reading of a text from an offset on. -/
abbrev Cursor : Type → Type := ReaderT String (StateT Nat (Except Halt))

/-- The bytes of a text, each as the character with its code. -/
def bytes (text : String) : List Char := text.toByteArray.data.toList.map Char.ofUInt8

/-- An offset between characters, or at an end of the text. -/
def IsBoundary (text : String) (offset : Nat) : Prop := String.Pos.Raw.IsValid text ⟨offset⟩

instance (text : String) (offset : Nat) : Decidable (IsBoundary text offset) :=
  inferInstanceAs (Decidable (String.Pos.Raw.IsValid text ⟨offset⟩))

/-- A byte that is not the first of its character. -/
def isContinuation (byte : Char) : Bool := 0x80 ≤ byte.toNat && byte.toNat < 0xc0

namespace Cursor

variable {α σ : Type}

/-- Crashes. -/
def crash (crash : Crash) : Cursor α := throw (.crashed crash)

/-- How many bytes the text has. -/
def size : Cursor Nat := return (← read).utf8ByteSize

/-- Puts the cursor at an offset. -/
def moveTo (offset : Nat) : Cursor Unit := set offset

/-- Passes over so many bytes. -/
def advance (count : Nat) : Cursor Unit := modify (· + count)

/-- The byte at an offset, if the text goes on so far. -/
def byteAt (offset : Nat) : Cursor (Option Char) := return (bytes (← read))[offset]?

/-- The next byte. -/
def peek : Cursor (Option Char) := do byteAt (← get)

/-- The byte after the next. -/
def peekSecond : Cursor (Option Char) := do byteAt ((← get) + 1)

/-- The byte in front of an offset. -/
def byteBefore (offset : Nat) : Cursor Char := do
  match offset with
  | 0 => crash (.byteBefore offset)
  | last + 1 =>
    match ← byteAt last with
    | some byte => return byte
    | none => crash (.byteBefore offset)

/-- The bytes between two offsets. -/
def byteSlice (start stop : Nat) : Cursor (List Char) := do
  let text ← read
  if start ≤ stop ∧ stop ≤ text.utf8ByteSize then
    return ((bytes text).drop start).take (stop - start)
  else crash (.bytes start stop)

/-- The part of the text between two offsets. -/
def slice (start stop : Nat) : Cursor (List Char) := do
  let text ← read
  if start ≤ stop ∧ IsBoundary text start ∧ IsBoundary text stop then
    return (String.Pos.Raw.extract text ⟨start⟩ ⟨stop⟩).toList
  else crash (.slice start stop)

/-- The text from an offset on, if that is a boundary. -/
def sliceFrom? (start : Nat) : Cursor (Option (List Char)) := do
  let text ← read
  if IsBoundary text start then
    return some (String.Pos.Raw.extract text ⟨start⟩ ⟨text.utf8ByteSize⟩).toList
  else return none

/-- Passes over the next byte if it is `byte`. -/
def skipOne (byte : Char) : Cursor Unit := do
  if (← peek) = some byte then advance 1 else return ()

/-- Passes over the bytes that satisfy `p`, up to the first that does not. -/
def skipWhile (p : Char → Bool) : Cursor Unit := do
  let rest := (bytes (← read)).drop (← get)
  advance (rest.takeWhile p).length

/-- Passes over blank text, line ends included. -/
def skipBlank : Cursor Unit := skipWhile Text.isBlank

/-- Passes over blank text within a line. -/
def skipInlineBlank : Cursor Unit := skipWhile Text.isInlineBlank

/-- Where the next line feed is, from an offset on. -/
def findNewline (start : Nat) : Cursor (Option Nat) := do
  let rest := (bytes (← read)).drop start
  return (rest.findIdx? (· == '\n')).map (start + ·)

/-- Passes over the next character. -/
def bumpChar : Cursor Unit := do
  match ← sliceFrom? (← get) with
  | some (c :: _) => advance c.utf8Size
  | _ => return ()

/-- Where the last line starts that is among the bytes. -/
def lastLineStart (before : List Char) : Nat :=
  match before.reverse.findIdx? (· == '\n') with
  | some distance => before.length - distance
  | none => 0

/-- Stops with the fault where the cursor stands. The line is counted by the line feeds in front of
it, the column by the first bytes of the characters on its line. -/
def fail (fault : Fault) : Cursor α := do
  let offset ← get
  let stop := min offset (← size)
  let before ← byteSlice 0 stop
  let line ← byteSlice (lastLineStart before) stop
  throw (.failed
    { fault := fault
      offset := stop
      line := before.count '\n' + 1
      column := line.countP (!isContinuation ·) + 1 }
    offset)

/-- Passes over the byte `byte`, which has to be next. -/
def expect (byte : Char) : Cursor Unit := do
  if (← peek) = some byte then advance 1 else fail (.expectedToken byte)

/-- Goes on with `handle` where a reading fails. A crash is not handled. -/
def recover (reading : Cursor α) (handle : ParseError → Cursor α) : Cursor α := fun text offset =>
  match reading text offset with
  | .error (.failed error stop) => handle error text stop
  | result => result

/-- Runs rounds from a first state until one is done. -/
def iterate (round : σ → Cursor (Round σ)) (state : σ) : Cursor σ := fun text offset =>
  match round state text offset with
  | .error halt => .error halt
  | .ok (.done state, stop) => .ok (state, stop)
  | .ok (.again state, stop) =>
    if offset < stop ∧ stop ≤ text.utf8ByteSize then iterate round state text stop
    else .error (.crashed (.stuck stop))
termination_by text offset => text.utf8ByteSize - offset

/-- The reading that `step` builds from itself. -/
def recursive (step : Cursor α → Cursor α) : Cursor α := fun text offset =>
  step (fun _ stop =>
    if offset < stop ∧ stop ≤ text.utf8ByteSize then recursive step text stop
    else .error (.crashed (.stuck stop))) text offset
termination_by text offset => text.utf8ByteSize - offset

end Cursor

end Fluent
