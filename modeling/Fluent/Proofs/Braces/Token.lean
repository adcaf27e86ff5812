import Mathlib.Data.List.TakeWhile
import Fluent.Proofs.Braces.Basic

/-!
# Tokens inside a pair of braces

* `Stays`: characters that keep the mode among some;
* `local_takeWhile`, `local_expect` and so on: the readers that all others are made of;
* `local_identifier`, `local_number`, `local_string`, `local_variantKey`: tokens.
-/

namespace Fluent.Grammar.Braces

open Fluent.Grammar.Parser Fluent.Text.Reader

variable {α : Type} {r : Nat} {m m' : Mode} {body rest run : List Char} {p q : Char → Bool}
  {c : Char} {M M' : Mode → Prop} {P : Frame → Parser α} {Pre : Mode → List Char → Prop}
  {Post : α → Mode → List Char → Prop}

/-- Characters that satisfy `p` keep the mode among those of `M`. -/
def Stays (M : Mode → Prop) (p : Char → Bool) : Prop :=
  ∀ c, p c = true → ∀ m, M m → ∃ m', M m' ∧ m.move c = some (.stay m')

theorem Stays.mono (stays : Stays M p) (h : ∀ c, q c = true → p c = true) : Stays M q :=
  fun c here => stays c (h c here)

theorem Stays.walks (stays : Stays M p) (all : ∀ c ∈ run, p c = true) (holds : M m) :
    ∃ m', M m' ∧ Walks 0 m run [m'] :=
  walks_run (fun c member => stays c (all c member)) holds

theorem Stays.walks_takeWhile (stays : Stays M p) (holds : M m) (body : List Char) :
    ∃ m', M m' ∧ Walks 0 m (body.takeWhile p) [m'] :=
  stays.walks (fun _ member => List.mem_takeWhile_imp member) holds

/-- Between braces, outside of strings and keys. -/
def InCode (m : Mode) : Prop := ∃ named, m = .code named

/-- A character of code with no meaning to the scan. -/
def isPlainCode (c : Char) : Bool := c != '{' && c != '}' && c != '"' && c != '[' && c != '='

theorem move_plainCode (plain : isPlainCode c = true) (named : Bool) :
    (Mode.code named).move c = some (.stay (.code (isIdentifierChar c))) := by
  simp only [isPlainCode, Bool.and_eq_true, bne_iff_ne, ne_eq] at plain
  simp [Mode.move, codeMove, plain]

theorem stays_code : Stays InCode isPlainCode := by
  rintro c plain _ ⟨named, rfl⟩
  exact ⟨_, ⟨_, rfl⟩, move_plainCode plain named⟩

theorem isPlainCode_of_isIdentifierChar (name : isIdentifierChar c = true) :
    isPlainCode c = true := by
  have other (d : Char) (h : isIdentifierChar d = false) : (c != d) = true :=
    bne_iff_ne.mpr fun same => by simp [← same, name] at h
  simp only [isPlainCode, Bool.and_eq_true]
  exact ⟨⟨⟨⟨other _ rfl, other _ rfl⟩, other _ rfl⟩, other _ rfl⟩, other _ rfl⟩

theorem isPlainCode_of_isBlank (blank : Text.isBlank c = true) : isPlainCode c = true := by
  simp only [Text.isBlank, Bool.or_eq_true, beq_iff_eq] at blank
  obtain ((rfl | rfl) | rfl) | rfl := blank <;> rfl

/-! ## Readers that all others are made of -/

/-- What is read the same in all frames, without looking at the room. -/
theorem localAt_of_all {a : α}
    (all : ∀ frame, P frame (frame.close body) = .ok (a, frame.close rest))
    (parts : body = run ++ rest) (walks : Walks 0 m run [m']) (post : Post a m' rest) :
    LocalAt r P Post m body := by
  intro frame _ b rest' read
  rw [all] at read
  obtain ⟨rfl, same⟩ := Prod.mk.inj (Except.ok.inj read)
  obtain rfl := close_inj same
  exact ⟨0, run, m', Nat.zero_le _, parts, walks, post, .of_all all⟩

/-- What is told by a reading in one frame may be used. -/
theorem localAt_of_read
    (h : ∀ frame a rest, P frame (frame.close body) = .ok (a, frame.close rest) →
      LocalAt r P Post m body) : LocalAt r P Post m body :=
  fun frame room a rest read => h frame a rest read frame room a rest read

theorem localAt_of_none
    (none : ∀ frame a rest, P frame (frame.close body) ≠ .ok (a, frame.close rest)) :
    LocalAt r P Post m body :=
  fun frame _ a rest read => absurd read (none frame a rest)

theorem local_peek :
    Local r Pre (fun _ => peek) fun c m rest => Pre m rest ∧ c = some (ahead rest) where
  shrinks _ _ text a rest read := by
    obtain ⟨-, rfl⟩ := Prod.mk.inj (Except.ok.inj read)
    exact List.suffix_refl _
  reads m body pre := by
    have all (frame : Frame) :
        (peek : Parser _) (frame.close body) = .ok (some (ahead body), frame.close body) := by
      rw [← head?_close frame body]
      rfl
    exact localAt_of_all all (List.nil_append body).symm walks_nil ⟨pre, rfl⟩

/-- Where a run ends inside a pair of braces, it ends there in all frames. -/
theorem dropWhile_inside {frame : Frame}
    (inside : (frame.close body).dropWhile p = frame.close rest) :
    rest = body.dropWhile p ∧ p (ahead rest) = false ∧ ∀ frame : Frame,
      (frame.close body).dropWhile p = frame.close rest ∧
        (frame.close body).takeWhile p = body.takeWhile p := by
  induction body with
  | nil =>
    by_cases passes : p '}' = true
    · have shorter := congrArg List.length inside
      have behind := (List.dropWhile_suffix p (l := frame.tail)).length_le
      rw [Frame.close, List.nil_append, List.dropWhile_cons_of_pos passes] at shorter
      simp [Frame.close] at shorter
      omega
    · rw [Frame.close, List.nil_append, List.dropWhile_cons_of_neg passes] at inside
      obtain rfl : [] = rest := close_inj inside
      refine ⟨rfl, Bool.eq_false_iff.mpr passes, fun frame => ⟨?_, ?_⟩⟩
      · exact List.dropWhile_cons_of_neg passes
      · exact List.takeWhile_cons_of_neg passes
  | cons c body ih =>
    by_cases passes : p c = true
    · rw [close_cons, List.dropWhile_cons_of_pos passes] at inside
      obtain ⟨rfl, stops, all⟩ := ih inside
      simpa [passes] using ⟨stops, all⟩
    · rw [close_cons, List.dropWhile_cons_of_neg passes, ← close_cons] at inside
      obtain rfl := close_inj inside
      simp [passes]

/-- Scanning goes over a run of characters with its reader. -/
theorem localAt_of_span {f : List Char → α} (stays : Stays M p) (holds : M m)
    (all : ∀ frame, P frame (frame.close body) =
      .ok (f ((frame.close body).takeWhile p), (frame.close body).dropWhile p)) :
    LocalAt r P (fun _ m' rest => M m' ∧ p (ahead rest) = false) m body := by
  intro frame room a rest read
  rw [all] at read
  obtain ⟨rfl, inside⟩ := Prod.mk.inj (Except.ok.inj read)
  obtain ⟨rfl, stops, same⟩ := dropWhile_inside inside
  obtain ⟨m', holds, walks⟩ := stays.walks_takeWhile holds body
  refine ⟨0, body.takeWhile p, m', Nat.zero_le _, List.takeWhile_append_dropWhile.symm, walks,
    ⟨holds, stops⟩, .of_all fun other => ?_⟩
  rw [all, (same frame).2, (same other).1, (same other).2]

theorem local_takeWhile (stays : Stays M p) :
    Local r (fun m _ => M m) (fun _ => takeWhile p)
      fun _ m' rest => M m' ∧ p (ahead rest) = false where
  shrinks _ _ text a rest read := by
    obtain ⟨-, rfl⟩ := Prod.mk.inj (Except.ok.inj read)
    exact List.dropWhile_suffix _
  reads _ _ holds := localAt_of_span (f := id) stays holds fun _ => rfl

theorem shrinks_skipWhile (p : Char → Bool) : Shrinks (skipWhile p) := by
  intro text a rest read
  obtain ⟨-, rfl⟩ := Prod.mk.inj (Except.ok.inj read)
  exact List.dropWhile_suffix _

theorem local_skipWhile (stays : Stays M p) :
    Local r (fun m _ => M m) (fun _ => skipWhile p)
      fun _ m' rest => M m' ∧ p (ahead rest) = false where
  shrinks _ _ := shrinks_skipWhile p
  reads _ _ holds := localAt_of_span (f := fun _ => ()) stays holds fun _ => rfl

/-- A character that is passed over in this mode leads to one of these. -/
def Passes (M : Mode → Prop) (c : Char) (M' : Mode → Prop) : Prop :=
  c ≠ '}' ∧ ∀ m, M m → ∃ m', M' m' ∧ m.move c = some (.stay m')

theorem local_advance (passes : Passes M c M') :
    Local r (fun m body => M m ∧ some c = some (ahead body)) (fun _ => advance)
      fun _ m' _ => M' m' where
  shrinks _ _ text a rest read := by
    obtain ⟨-, rfl⟩ := Prod.mk.inj (Except.ok.inj read)
    exact List.drop_suffix _ _
  reads m body pre := by
    obtain ⟨rest, rfl⟩ := exists_cons_of_ahead (Option.some_inj.mp pre.2).symm passes.1
    obtain ⟨m', holds, move⟩ := passes.2 m pre.1
    exact localAt_of_all (fun _ => rfl) rfl (walks_stay move) holds

theorem local_expect (passes : Passes M c M') :
    Local r (fun m _ => M m) (fun _ => expect c) fun _ m' _ => M' m' := by
  refine local_peek.bind fun next => .choice (fun here => ?_) fun _ => .fails nofun
  subst here
  exact local_advance passes

theorem local_takeOne (passes : Passes M c M) :
    Local r (fun m _ => M m) (fun _ => takeOne c) fun _ m' _ => M m' := by
  refine local_peek.bind fun next => .choice (fun here => ?_) fun _ => .pure fun _ _ pre => pre.1
  subst here
  exact (local_advance passes).bind fun _ => .pure fun _ _ holds => holds

/-! ## Names and numbers -/

theorem stays_named : Stays (· = .code true) isIdentifierChar := by
  rintro c name _ rfl
  have move := move_plainCode (isPlainCode_of_isIdentifierChar name) true
  exact ⟨_, rfl, by rw [move, name]⟩

theorem isIdentifierChar_of_isAlpha (letter : c.isAlpha = true) : isIdentifierChar c = true := by
  simp [isIdentifierChar, Char.isAlphanum, letter]

/-- A name is next. -/
theorem localAt_name {f : List Char → α} (holds : InCode m)
    (name : isIdentifierChar (ahead body) = true)
    (all : ∀ frame : Frame, P frame (frame.close body) =
      .ok (f ((frame.close body).takeWhile isIdentifierChar),
        (frame.close body).dropWhile isIdentifierChar)) :
    LocalAt r P (fun _ m' _ => m' = .code true) m body := by
  have stops : isIdentifierChar '}' = false := rfl
  have other : ahead body ≠ '}' := fun same => by simp [same, stops] at name
  obtain ⟨rest, parts⟩ := exists_cons_of_ne body other
  obtain ⟨named, rfl⟩ := holds
  have move := move_plainCode (isPlainCode_of_isIdentifierChar name) named
  obtain ⟨_, rfl, walks⟩ := stays_named.walks_takeWhile rfl rest
  rw [name] at move
  have all' (frame : Frame) : P frame (frame.close body) =
      .ok (f (body.takeWhile isIdentifierChar), frame.close (body.dropWhile isIdentifierChar)) := by
    rw [all, takeWhile_close frame stops, dropWhile_close frame stops]
  refine localAt_of_all all' List.takeWhile_append_dropWhile.symm ?_ rfl
  rw [parts, List.takeWhile_cons_of_pos name]
  exact (walks_stay move).append walks

theorem shrinks_identifier : Shrinks identifier :=
  shrinks_of_agree fun text => Transcription.identifier_agree (Transcription.asIs_inside text)

theorem shrinks_entryIdentifier : Shrinks entryIdentifier :=
  shrinks_of_agree fun text => Transcription.entryIdentifier_agree (Transcription.asIs_inside text)

theorem local_identifier :
    Local r (fun m _ => InCode m) (fun _ => identifier) fun _ m' _ => m' = .code true where
  shrinks _ _ := shrinks_identifier
  reads m body holds := by
    by_cases letter : (ahead body).isAlpha = true
    · refine localAt_name (f := String.ofList) holds (isIdentifierChar_of_isAlpha letter)
        fun frame => ?_
      rw [identifier_apply, head?_close, Option.any_some, if_pos letter]
    · refine localAt_of_none fun frame a rest read => ?_
      rw [identifier_apply, head?_close, Option.any_some, if_neg letter] at read
      cases read

/-- The id of an entry is a run of characters of a name, with a letter in front or behind a
hyphen. -/
theorem entryIdentifier_eq (text : List Char) :
    entryIdentifier text =
      if (leadChar? text).any Char.isAlpha then
        .ok (String.ofList (text.takeWhile isIdentifierChar), text.dropWhile isIdentifierChar)
      else .error ⟨.expectedIdentifier, text.drop 1⟩ := by
  by_cases hyphen : text.head? = some '-'
  · obtain ⟨rest, rfl⟩ := List.head?_eq_some_iff.mp hyphen
    rw [entryIdentifier_hyphen]
    rfl
  · rw [entryIdentifier_apply hyphen, identifier_apply, leadChar?, if_neg hyphen]

/-- The next character, or the one behind a hyphen. -/
def lead (body : List Char) : Char := if ahead body = '-' then ahead body.tail else ahead body

theorem leadChar?_close (frame : Frame) (body : List Char) :
    leadChar? (frame.close body) = some (lead body) := by
  cases body with
  | nil => rfl
  | cons c body => by_cases hyphen : c = '-' <;> simp [leadChar?, lead, hyphen]

theorem local_entryIdentifier :
    Local r (fun m _ => InCode m) (fun _ => entryIdentifier) fun _ m' _ => m' = .code true where
  shrinks _ _ := shrinks_entryIdentifier
  reads m body holds := by
    by_cases letter : (lead body).isAlpha = true
    · have name : isIdentifierChar (ahead body) = true := by
        rw [lead] at letter
        split at letter
        · rename_i hyphen
          rw [hyphen]
          rfl
        · exact isIdentifierChar_of_isAlpha letter
      refine localAt_name (f := String.ofList) holds name fun frame => ?_
      rw [entryIdentifier_eq, leadChar?_close, Option.any_some, if_pos letter]
    · refine localAt_of_none fun frame a rest read => ?_
      rw [entryIdentifier_eq, leadChar?_close, Option.any_some, if_neg letter] at read
      cases read

/-- A character of a number. -/
def isNumberChar (c : Char) : Bool := c.isDigit || c == '-' || c == '.'

theorem local_number (stays : Stays M isNumberChar) :
    Local r (fun m _ => M m) (fun _ => number) fun _ m' _ => M m' := by
  have digits : Stays M Char.isDigit := stays.mono fun c digit => by simp [isNumberChar, digit]
  have hyphen : Passes M '-' M := ⟨by decide, stays '-' rfl⟩
  have point : Passes M '.' M := ⟨by decide, stays '.' rfl⟩
  refine (local_takeOne hyphen).bind fun sign => (local_takeWhile digits).bind fun whole => ?_
  refine .choice (fun _ => .fails nofun) fun _ => ?_
  refine ((local_takeOne point).before fun _ _ pre => pre.1).bind fun point => ?_
  refine (local_takeWhile digits).bind fun fraction => .choice (fun _ => .fails nofun) fun _ => ?_
  split
  · exact .pure fun _ _ post => post.1
  · exact .fails nofun

/-! ## Quoted strings -/

/-- The mode that an escape stands in. -/
def escapeMode (inString : Bool) : Mode := if inString then .string else .text

theorem move_backslash (inString : Bool) :
    (escapeMode inString).move '\\' = some (.stay (.escape inString)) := by
  cases inString <;> rfl

theorem move_escape (inString : Bool) (other : c ≠ '\n') :
    (Mode.escape inString).move c = some (.stay (escapeMode inString)) := by
  simp [Mode.move, escapeMode, other]

theorem stays_hexDigit (inString : Bool) : Stays (· = escapeMode inString) Text.isHexDigit := by
  rintro c digit _ rfl
  have other (d : Char) (h : Text.isHexDigit d = false) : c ≠ d := fun same => by
    simp [← same, digit] at h
  refine ⟨_, rfl, ?_⟩
  cases inString
  · simp [escapeMode, Mode.move, textMove, other '{' rfl, other '\\' rfl, other '\n' rfl]
  · simp [escapeMode, Mode.move, other '"' rfl, other '\\' rfl, other '\n' rfl]

/-- A code of four digits is inside a pair of braces or it is none. -/
theorem codedChar?_close {frame : Frame} {coded : Char}
    (h : Text.codedChar? 4 (frame.close body) = some coded) :
    (∀ c ∈ body.take 4, Text.isHexDigit c = true) ∧ ∀ frame : Frame,
      Text.codedChar? 4 (frame.close body) = some coded ∧
        (frame.close body).drop 4 = frame.close (body.drop 4) := by
  rw [Text.codedChar?] at h
  split at h
  · rename_i valid
    obtain ⟨width, digits, code⟩ := valid
    have long : 4 ≤ body.length := by
      by_contra short
      have brace : '}' ∈ (frame.close body).take 4 := by
        rw [Frame.close, List.take_append, List.mem_append]
        refine .inr ?_
        obtain ⟨n, length⟩ : ∃ n, 4 - body.length = n + 1 := ⟨3 - body.length, by omega⟩
        rw [length, List.take_succ_cons]
        exact List.mem_cons_self
      exact absurd (List.all_eq_true.mp digits _ brace) (by decide)
    have first (frame : Frame) : (frame.close body).take 4 = body.take 4 :=
      List.take_append_of_le_length long
    rw [first] at width digits code h
    refine ⟨List.all_eq_true.mp digits, fun frame => ⟨?_, List.drop_append_of_le_length long⟩⟩
    rw [Text.codedChar?, first]
    exact (if_pos ⟨width, digits, code⟩).trans h
  · cases h

theorem escape_suffix {escapable : List Char} {backslash : Char} {text : List Char}
    (read : escape escapable (backslash :: text) = .ok (c, rest)) : rest <:+ text := by
  rw [escape_cons] at read
  cases text with
  | nil => cases read
  | cons first text =>
    refine List.IsSuffix.trans ?_ (List.suffix_cons first text)
    dsimp only at read
    split at read
    · obtain ⟨-, rfl⟩ := Prod.mk.inj (Except.ok.inj read)
      exact List.suffix_refl _
    · split at read
      · split at read
        · obtain ⟨-, rfl⟩ := Prod.mk.inj (Except.ok.inj read)
          exact List.drop_suffix _ _
        · cases read
      · cases read

theorem shrinks_escape (escapable : List Char) : Shrinks (escape escapable) := by
  intro text c rest read
  cases text with
  | nil => cases read
  | cons backslash text => exact (escape_suffix read).trans (List.suffix_cons backslash text)

/-- An escape keeps inside its string or text. -/
theorem local_escape {escapable : List Char} (inString : Bool) (lineFeed : '\n' ∉ escapable)
    (brace : '}' ∉ escapable) :
    Local r (fun m body => m = escapeMode inString ∧ some '\\' = some (ahead body))
      (fun _ => escape escapable) fun _ m' _ => m' = escapeMode inString where
  shrinks _ _ := shrinks_escape escapable
  reads m body pre := by
    obtain ⟨rfl, here⟩ := pre
    obtain ⟨body, rfl⟩ := exists_cons_of_ahead (Option.some_inj.mp here).symm (by decide)
    cases body with
    | nil =>
      refine localAt_of_none fun frame a rest read => ?_
      simp [Frame.close, escape_cons, brace] at read
    | cons c body =>
      by_cases mark : c ∈ escapable
      · have other : c ≠ '\n' := fun same => lineFeed (same ▸ mark)
        have walks := (walks_stay (move_backslash inString)).append
          (walks_stay (move_escape inString other))
        refine localAt_of_all (a := c) (fun frame => ?_) rfl walks rfl
        simp [escape_cons, mark]
      · refine localAt_of_read fun frame a rest read => ?_
        simp only [close_cons, escape_cons, if_neg mark] at read
        split at read
        · subst c
          split at read
          · rename_i found coded
            obtain ⟨digits, all⟩ := codedChar?_close coded
            obtain ⟨_, rfl, walks⟩ := (stays_hexDigit inString).walks digits rfl
            have before := (walks_stay (move_backslash inString)).append
              (walks_stay (move_escape inString (c := 'u') (by decide)))
            have parts : '\\' :: 'u' :: body = ['\\', 'u'] ++ body.take 4 ++ body.drop 4 := by simp
            refine localAt_of_all (a := found) (fun other => ?_) parts (before.append walks) rfl
            simp only [close_cons, escape_cons, if_neg mark, (all other).1, (all other).2]
            rfl
          · cases read
        · cases read

theorem stays_string : Stays (· = .string) isStringChar := by
  rintro c plain _ rfl
  simp only [isStringChar, Bool.and_eq_true, bne_iff_ne, ne_eq] at plain
  exact ⟨_, rfl, by simp [Mode.move, plain]⟩

theorem local_stringRound (read : List Char) :
    Local r (fun m _ => m = .string) (fun _ => stringRound read)
      (KeptAt (fun _ m _ => m = .string) fun _ m _ => m = .code false) := by
  refine (local_takeWhile stays_string).bind fun run => local_peek.bind fun next => ?_
  split
  · have passes : Passes (· = .string) '"' (· = .code false) :=
      ⟨by decide, fun m string => ⟨_, rfl, string ▸ rfl⟩⟩
    refine ((local_advance passes).before fun m body pre => ⟨pre.1.1, pre.2⟩).bind ?_
    exact fun _ => .pure fun _ _ code => code
  · refine ((local_escape true (by decide) (by decide)).before fun m body pre => ?_).bind ?_
    · exact ⟨pre.1.1, pre.2⟩
    · exact fun c => .pure fun _ _ string => string
  · exact .fails nofun

theorem stringRound_onward {read text rest next : List Char}
    (found : stringRound read text = .ok (.again next, rest)) : rest.length < text.length := by
  have behind := (List.dropWhile_suffix isStringChar (l := text)).length_le
  rw [stringRound_apply] at found
  split at found
  · cases found
  · rename_i stop
    obtain ⟨c, mid, escaped, found⟩ := exists_of_bind_ok found
    obtain ⟨-, rfl⟩ := Prod.mk.inj (Except.ok.inj found)
    rw [stop] at behind
    exact Nat.lt_of_lt_of_le (Nat.lt_succ_of_le (escape_suffix escaped).length_le) behind
  · cases found

theorem local_string :
    Local r (fun m body => InCode m ∧ some '"' = some (ahead body)) (fun _ => string)
      fun _ m' _ => m' = .code false := by
  have passes : Passes InCode '"' (· = .string) := by
    refine ⟨by decide, ?_⟩
    rintro _ ⟨named, rfl⟩
    exact ⟨_, rfl, rfl⟩
  refine (local_advance passes).bind fun _ => Local.bind ?_ fun _ => .pure fun _ _ code => code
  exact Local.iterate local_stringRound (fun _ _ _ _ _ _ => stringRound_onward) []

/-! ## Keys -/

theorem stays_key (ofReference : Bool) :
    Stays (· = .key ofReference) fun c => c != ']' && c != '\n' := by
  rintro c other _ rfl
  simp only [Bool.and_eq_true, bne_iff_ne, ne_eq] at other
  exact ⟨_, rfl, by simp [Mode.move, other]⟩

/-- Characters of a key are neither brackets nor line feeds. -/
theorem stays_key_of (ofReference : Bool) (bracket : p ']' = false) (lineFeed : p '\n' = false) :
    Stays (· = .key ofReference) p := by
  refine (stays_key ofReference).mono fun c here => ?_
  simp only [Bool.and_eq_true, bne_iff_ne, ne_eq]
  constructor <;> rintro rfl <;> simp_all

theorem local_keyword (ofReference : Bool) :
    Local r (fun m _ => m = .key ofReference) (fun _ => keyword)
      fun _ m' _ => m' = .key ofReference where
  shrinks _ _ :=
    shrinks_of_agree fun text => Transcription.keyword_agree (Transcription.asIs_inside text)
  reads m body key := by
    have stops : isKeywordChar '}' = false := rfl
    have inside : ∀ c ∈ body.takeWhile isKeywordChar, isKeywordChar c = true :=
      fun c member => List.mem_takeWhile_imp member
    have name := Text.dropEndWhile_prefix (· == ' ') (body.takeWhile isKeywordChar)
    obtain ⟨others, parts⟩ := name.trans (List.takeWhile_prefix isKeywordChar)
    obtain ⟨_, rfl, walks⟩ := (stays_key_of (p := isKeywordChar) ofReference rfl rfl).walks
      (fun c member => inside c (name.subset member)) key
    by_cases letter : (ahead body).isAlpha || ahead body == '_'
    · have behind (frame : Frame) (run : List Char) (h : run ++ others = body) :
          (frame.close body).drop run.length = frame.close others := by
        rw [← h, close_append, List.drop_left]
      have all (frame : Frame) : keyword (frame.close body) = .ok (String.ofList
          (Text.dropEndWhile (· == ' ') (body.takeWhile isKeywordChar)), frame.close others) := by
        rw [keyword_apply, head?_close, Option.any_some, if_pos letter,
          takeWhile_close frame stops]
        exact congrArg (fun rest => Except.ok (_, rest)) (behind frame _ parts)
      exact localAt_of_all all parts.symm walks rfl
    · refine localAt_of_none fun frame a rest read => ?_
      rw [keyword_apply, head?_close, Option.any_some, if_neg letter] at read
      cases read

theorem local_variantKey (ofReference : Bool) :
    Local r (fun m _ => m = .key ofReference) (fun _ => variantKey)
      fun _ m' _ => m' = if ofReference then .code false else .value := by
  have bracket : Passes (· = .key ofReference) ']'
      (· = if ofReference then .code false else .value) :=
    ⟨by decide, fun m key => ⟨_, rfl, key ▸ rfl⟩⟩
  have close (key : VariantKey) : Local r (fun m _ => m = .key ofReference)
      (fun _ => do skipInlineBlank; expect ']'; return key : Frame → Parser VariantKey)
      fun _ m' _ => m' = if ofReference then .code false else .value := by
    refine (local_skipWhile (stays_key_of ofReference rfl rfl)).bind fun _ => ?_
    refine ((local_expect bracket).before fun _ _ pre => pre.1).bind fun _ => ?_
    exact .pure fun _ _ post => post
  refine (local_skipWhile (stays_key_of ofReference rfl rfl)).bind fun _ => ?_
  refine (local_peek.mono (fun _ _ pre => pre.1) fun _ _ _ post => post.1).bind fun next => ?_
  refine .choice (fun _ => ?_) fun _ => ?_
  · have number := local_number (r := r) (stays_key_of (p := isNumberChar) ofReference rfl rfl)
    exact (number.bind fun _ => .pure fun _ _ post => post).bind close
  · exact ((local_keyword ofReference).bind fun _ => .pure fun _ _ post => post).bind close

end Fluent.Grammar.Braces
