import Fluent.Cursor.Token
import Fluent.Proofs.Cursor.Basic
import Fluent.Proofs.Token

/-!
# Tokens by their bytes

The cursors for identifiers, numbers, strings and keys follow the parsers for them. Digits of an
escape are compared as bytes before they are taken as text, and a keyword goes back over its spaces
byte by byte; both are among characters that are their own bytes.
-/

namespace Fluent.Cursor

open Grammar (Failure Parser byteSize isIdentifierChar isStringChar isKeywordChar identifier_apply
  entryIdentifier_apply entryIdentifier_hyphen escape_cons stringRound_apply keyword_apply)
open Grammar.Parser (stop)
open Text.Reader (takeOne_bind_apply takeWhile_bind_apply choice_apply)

variable {β : Type} {source : String} {text rest start : List Char}

theorem steady_isAlphanum : Steady Char.isAlphanum := steady_isAlpha.or steady_isDigit

theorem steady_isIdentifierChar : Steady isIdentifierChar :=
  (steady_isAlphanum.or (steady_beq (by decide))).or (steady_beq (by decide))

theorem steady_isStringChar : Steady isStringChar :=
  ((steady_beq (by decide)).not.and (steady_beq (by decide)).not).and (steady_beq (by decide)).not

theorem steady_isKeywordChar : Steady isKeywordChar :=
  ((steady_isAlphanum.or (steady_beq (by decide))).or (steady_beq (by decide))).or
    (steady_beq (by decide))

/-! ## Identifiers -/

/-- What is read of an identifier that starts with `hyphen`, which may be empty. -/
theorem scanIdentifier_agrees (hyphen : List Char) (ends : hyphen ++ rest <:+ text) :
    Agrees source text rest (scanIdentifier (place source (hyphen ++ rest)))
      (if rest.head?.any Char.isAlpha then
        .ok (String.ofList (hyphen ++ rest.takeWhile isIdentifierChar),
          rest.dropWhile isIdentifierChar)
      else .error ⟨.expectedIdentifier, (hyphen ++ rest).drop 1⟩) := by
  refine .peek (.choice (by rw [any_head?_codes steady_isAlpha]) (fun _ => ?_) fun _ => ?_)
  · refine .skipWhile steady_isIdentifierChar (.get (.slice ?_ ends (.pure _)))
    rw [List.append_assoc, List.takeWhile_append_dropWhile]
  · exact .moveTo ends (.bumpChar (.fail _))

theorem identifier_follows : Follows source identifier Grammar.identifier := by
  intro rest
  rw [identifier_apply]
  exact .get (scanIdentifier_agrees [] (List.suffix_refl rest))

theorem entryIdentifier_follows : Follows source entryIdentifier Grammar.entryIdentifier := by
  intro rest
  by_cases hyphen : rest.head? = some '-'
  · obtain ⟨rest, rfl⟩ := List.head?_eq_some_iff.mp hyphen
    rw [entryIdentifier_hyphen]
    exact .get (.skipOne_pos (by decide)
      (scanIdentifier_agrees ['-'] (List.suffix_refl _)))
  · rw [entryIdentifier_apply hyphen, identifier_apply]
    exact .get (.skipOne_neg (by decide) hyphen
      (scanIdentifier_agrees [] (List.suffix_refl rest)))

/-! ## Numbers -/

theorem unknownLiteral_agrees {α : Type} {read : List Char} (ends : read ++ rest <:+ text) :
    Agrees source text rest (unknownLiteral (place source (read ++ rest)) : Cursor α)
      (.error ⟨.unknownLiteral (String.ofList read), rest⟩) :=
  .get (.slice rfl ends (.fail _))

/-- Digits are passed over behind what was read; without any the reading fails. -/
theorem digits_agrees {read : List Char} {k : Unit → Cursor β}
    {result : Except Failure (β × List Char)} (ends : read ++ rest <:+ text)
    (missing : rest.takeWhile Char.isDigit = [] →
      result = .error ⟨.unknownLiteral (String.ofList read), rest⟩)
    (found : rest.takeWhile Char.isDigit ≠ [] →
      Agrees source text (rest.dropWhile Char.isDigit) (k ()) result) :
    Agrees source text rest (digits (place source (read ++ rest)) >>= k) result := by
  intro inside inner
  simp only [digits, bind_assoc]
  have parts := List.takeWhile_append_dropWhile (p := Char.isDigit) (l := rest)
  have here := inner.trans inside
  have moved : place source rest < place source (rest.dropWhile Char.isDigit) ↔
      rest.takeWhile Char.isDigit ≠ [] := by
    rw [place_lt_iff here ((List.dropWhile_suffix _).trans here), ← List.length_pos_iff]
    have := congrArg List.length parts
    rw [List.length_append] at this
    omega
  refine Agrees.get (.skipWhile steady_isDigit (.get ?_)) inside inner
  by_cases none : rest.takeWhile Char.isDigit = []
  · have same : rest.dropWhile Char.isDigit = rest := by
      rwa [none, List.nil_append] at parts
    rw [if_neg (fun later => moved.mp later none), same, missing none, unknownLiteral, bind_assoc]
    refine .get ?_
    rw [bind_assoc]
    exact .slice rfl ends (.fail_bind _)
  · rw [if_pos (moved.mpr none), pure_bind]
    exact found none

/-- The number that has been read. -/
def numeralOf (written : List Char) : Parser NumberLiteral :=
  match Number.readFloat? written with
  | some value => return ⟨String.ofList written, value⟩
  | none => Grammar.Parser.fail (.unknownLiteral (String.ofList written))

/-- Reads what follows the first digits of a number. -/
def fractionAfter (read : List Char) : Parser NumberLiteral := do
  let point ← Text.Reader.takeOne '.'
  let fraction ← Text.Reader.takeWhile Char.isDigit
  let written := read ++ point ++ fraction
  if !point.isEmpty && fraction.isEmpty then
    Grammar.Parser.fail (.unknownLiteral (String.ofList written))
  else numeralOf written

/-- Reads what follows the sign of a number. -/
def digitsAfter (sign : List Char) : Parser NumberLiteral := do
  let whole ← Text.Reader.takeWhile Char.isDigit
  if whole.isEmpty then Grammar.Parser.fail (.unknownLiteral (String.ofList sign))
  else fractionAfter (sign ++ whole)

theorem number_eq : Grammar.number = Text.Reader.takeOne '-' >>= digitsAfter := rfl

theorem numeral_agrees {written : List Char} (ends : written ++ rest <:+ text) :
    Agrees source text rest (numeral (place source (written ++ rest)))
      (numeralOf written rest) := by
  refine .get (.slice rfl ends ?_)
  rw [numeralOf]
  cases Number.readFloat? written with
  | none => exact unknownLiteral_agrees ends
  | some value => exact .pure _

theorem fraction_agrees {read : List Char} (ends : read ++ rest <:+ text)
    (noDigit : rest.head?.any Char.isDigit = false) :
    Agrees source text rest (do
      fraction (place source (read ++ rest))
      numeral (place source (read ++ rest)))
      (fractionAfter read rest) := by
  rw [fraction, bind_assoc, fractionAfter, takeOne_bind_apply]
  refine .peek ?_
  by_cases point : rest.head? = some '.'
  · obtain ⟨rest, rfl⟩ := List.head?_eq_some_iff.mp point
    have shift : read ++ '.' :: rest = (read ++ ['.']) ++ rest := by simp
    have parts := List.takeWhile_append_dropWhile (p := Char.isDigit) (l := rest)
    rw [if_pos point, if_pos ((head?_codes (by decide) _).mpr point), takeWhile_bind_apply,
      choice_apply, bind_assoc]
    refine .advance (by decide) ?_
    rw [List.drop_one, List.tail_cons]
    rw [shift] at ends ⊢
    refine digits_agrees ends (fun none => ?_) fun some => ?_
    · have same : rest.dropWhile Char.isDigit = rest := by rwa [none, List.nil_append] at parts
      rw [none, same, List.append_nil]
      rfl
    · have shift' : (read ++ ['.']) ++ rest =
          (read ++ ['.'] ++ rest.takeWhile Char.isDigit) ++ rest.dropWhile Char.isDigit := by
        rw [List.append_assoc _ (rest.takeWhile _), parts]
      rw [if_neg (by simpa using some)]
      rw [shift'] at ends ⊢
      exact numeral_agrees ends
  · have none : rest.takeWhile Char.isDigit = [] ∧ rest.dropWhile Char.isDigit = rest := by
      cases rest with
      | nil => exact ⟨rfl, rfl⟩
      | cons c rest =>
        rw [List.head?_cons, Option.any_some] at noDigit
        simp [noDigit]
    rw [if_neg point, if_neg (mt (head?_codes (by decide) _).mp point), takeWhile_bind_apply,
      none.1, none.2, choice_apply, pure_bind, List.append_nil, List.append_nil]
    exact numeral_agrees ends

theorem digitsAfter_agrees (sign : List Char) (ends : sign ++ rest <:+ text) :
    Agrees source text rest (do
      digits (place source (sign ++ rest))
      fraction (place source (sign ++ rest))
      numeral (place source (sign ++ rest)))
      (digitsAfter sign rest) := by
  have parts := List.takeWhile_append_dropWhile (p := Char.isDigit) (l := rest)
  rw [digitsAfter, takeWhile_bind_apply, choice_apply]
  refine digits_agrees ends (fun none => ?_) fun some => ?_
  · have same : rest.dropWhile Char.isDigit = rest := by rwa [none, List.nil_append] at parts
    rw [none, same]
    rfl
  · have shift : sign ++ rest =
        (sign ++ rest.takeWhile Char.isDigit) ++ rest.dropWhile Char.isDigit := by
      rw [List.append_assoc, parts]
    rw [if_neg (by simpa using some)]
    rw [shift] at ends ⊢
    refine fraction_agrees ends ?_
    have head := List.head?_dropWhile_not Char.isDigit rest
    cases h : (rest.dropWhile Char.isDigit).head? with
    | none => rfl
    | some c => simpa [h] using head

theorem number_follows : Follows source number Grammar.number := by
  intro rest
  rw [number_eq, takeOne_bind_apply]
  refine .get ?_
  by_cases sign : rest.head? = some '-'
  · obtain ⟨rest, rfl⟩ := List.head?_eq_some_iff.mp sign
    rw [if_pos sign]
    exact .skipOne_pos (by decide) (digitsAfter_agrees ['-'] (List.suffix_refl _))
  · rw [if_neg sign]
    exact .skipOne_neg (by decide) sign (digitsAfter_agrees [] (List.suffix_refl rest))

/-! ## Escapes and strings -/

theorem isHexDigit_plain {c : Char} (h : Text.isHexDigit c = true) : c.toNat < 128 := by
  have hc : c.val.toNat = c.toNat := rfl
  simp only [Text.isHexDigit, Char.isDigit, Bool.or_eq_true, Bool.and_eq_true, decide_eq_true_eq,
    ge_iff_le, UInt32.le_iff_toNat_le, Char.le_def] at h
  simp at h
  omega

/-- Four digits are found among the bytes if they are among the characters. -/
theorem hexDigits_codes {width : Nat} (text : List Char) :
    ((codes text).take width).length = width ∧ ((codes text).take width).all Text.isHexDigit ↔
      (text.take width).length = width ∧ (text.take width).all Text.isHexDigit := by
  constructor
  · rintro ⟨long, digits⟩
    rw [take_codes fun byte member => isHexDigit_plain (List.all_eq_true.mp digits byte member)]
      at long digits
    exact ⟨long, digits⟩
  · rintro ⟨long, digits⟩
    have self : codes (text.take width) = text.take width :=
      codes_eq_self fun c member => isHexDigit_plain (List.all_eq_true.mp digits c member)
    have front : (codes text).take width = text.take width := by
      conv_lhs => rw [← List.take_append_drop width text, codes_append, self]
      exact List.take_left' long
    rw [front]
    exact ⟨long, digits⟩

theorem codedChar?_take (width : Nat) (text : List Char) :
    Text.codedChar? width (text.take width) = Text.codedChar? width text := by
  simp only [Text.codedChar?, List.take_take, Nat.min_self]

theorem codedChar?_eq_none {width : Nat} {text : List Char}
    (h : ¬((text.take width).length = width ∧ (text.take width).all Text.isHexDigit)) :
    Text.codedChar? width text = none := by
  rw [Text.codedChar?]
  exact if_neg fun read => h ⟨read.1, read.2.1⟩

theorem invalidUnicodeEscape_agrees :
    Agrees source ('u' :: rest) ('u' :: rest) invalidUnicodeEscape
      (.error ⟨.invalidUnicodeEscape (String.ofList (rest.take 4)), 'u' :: rest⟩) := by
  refine .of_inside fun inside => .get (.size ?_)
  rw [← place_cons (by decide) inside]
  exact .sliceToEnd (List.suffix_cons _ _) (.fail _)

theorem unicodeEscape_agrees :
    Agrees source ('u' :: rest) ('u' :: rest) unicodeEscape
      (match Text.codedChar? 4 rest with
        | some coded => .ok (coded, rest.drop 4)
        | none => .error ⟨.invalidUnicodeEscape (String.ofList (rest.take 4)), 'u' :: rest⟩) := by
  refine .of_inside fun inside => .get (.size ?_)
  simp only [← place_cons (by decide) inside]
  refine .byteSlice 4 (List.suffix_cons _ _) ?_
  by_cases digits : (rest.take 4).length = 4 ∧ (rest.take 4).all Text.isHexDigit
  · have parts := (List.take_append_drop 4 rest).symm
    have four : byteSize (rest.take 4) = 4 := by
      rw [← length_codes, codes_eq_self fun c member =>
        isHexDigit_plain (List.all_eq_true.mp digits.2 c member), digits.1]
    have ends := (List.suffix_cons 'u' rest).trans inside
    have moved : place source (rest.drop 4) = place source rest + 4 := by
      rw [place_append (rest.take 4) (by rwa [← parts]), ← parts, four]
    have stop : min (place source rest + 4) source.utf8ByteSize = place source (rest.drop 4) := by
      rw [← moved, Nat.min_eq_left (place_le _ _)]
    rw [if_pos ((hexDigits_codes rest).mpr digits), stop]
    refine .slice parts (List.suffix_cons _ _) ?_
    rw [codedChar?_take]
    cases Text.codedChar? 4 rest with
    | none => exact invalidUnicodeEscape_agrees
    | some coded =>
      exact .moveTo ((List.drop_suffix 4 rest).trans (List.suffix_cons _ _)) (.pure coded)
  · rw [if_neg (mt (hexDigits_codes rest).mp digits), codedChar?_eq_none digits]
    exact invalidUnicodeEscape_agrees

theorem unknownEscape_agrees (rest : List Char) :
    Agrees source rest rest unknownEscape
      (.error ⟨.unknownEscape (String.ofList (rest.take 1)), rest⟩) :=
  .get (.size (.sliceToEnd (List.suffix_refl rest) (.fail _)))

theorem escape_agrees {escapable : List Char} (plain : ∀ c ∈ escapable, c.toNat < 128) :
    Agrees source ('\\' :: rest) ('\\' :: rest) (escape escapable)
      (Grammar.escape escapable ('\\' :: rest)) := by
  rw [escape_cons]
  refine .advance (by decide) (.peek (.mono ?_))
  cases rest with
  | nil => exact unknownEscape_agrees []
  | cons c rest =>
    obtain ⟨byte, head, same⟩ := exists_head?_codes c rest
    have member : byte ∈ escapable ↔ c ∈ escapable := by
      constructor
      · intro h
        rwa [(same byte (plain byte h)).mp rfl]
      · intro h
        rwa [(same c (plain c h)).mpr rfl]
    rw [head]
    refine .choice member (fun taken => ?_) fun _ => ?_
    · obtain rfl : byte = c := (same c (plain c taken)).mpr rfl
      exact .advance (plain byte taken) (.pure byte)
    · refine .choice (same 'u' (by decide)) (fun unicode => ?_) fun _ => ?_
      · subst unicode
        exact unicodeEscape_agrees
      · exact unknownEscape_agrees (c :: rest)

/-- An escape uses up its backslash. -/
theorem escape_shorter {escapable : List Char} {c : Char} {next : List Char}
    (found : Grammar.escape escapable ('\\' :: rest) = .ok (c, next)) :
    next.length < ('\\' :: rest).length := by
  rw [escape_cons] at found
  split at found
  · cases found
  · rename_i d rest
    split at found
    · cases found
      simp
    · split at found
      · split at found
        · cases found
          simp
          omega
        · cases found
      · cases found

theorem stringRound_follows (read : List Char) :
    Follows source (stringRound read) (Grammar.stringRound read) := by
  intro rest
  have parts := List.takeWhile_append_dropWhile (p := isStringChar) (l := rest)
  have head := List.head?_dropWhile_not isStringChar rest
  rw [stringRound_apply]
  refine .get (.skipWhile steady_isStringChar (.peek ?_))
  generalize rest.dropWhile isStringChar = next at parts head ⊢
  generalize rest.takeWhile isStringChar = run at parts ⊢
  subst parts
  cases next with
  | nil => exact .fail _
  | cons c next =>
    have cases : c = '"' ∨ c = '\\' ∨ c = '\n' := by
      simp only [List.head?_cons, isStringChar, Bool.and_eq_false_iff, bne_eq_false_iff_eq] at head
      tauto
    obtain rfl | rfl | rfl := cases
    · exact .get (.slice rfl (List.suffix_refl _) (.advance (by decide) (.pure _)))
    · refine .get (.slice rfl (List.suffix_refl _) ?_)
      refine .bind (escape_agrees (by simp)) fun c next _ _ => .pure _
    · exact .fail _

theorem stringRound_advances (read : List Char) :
    Advances rest (Grammar.stringRound read rest) := by
  have ends := List.dropWhile_suffix (l := rest) isStringChar
  rw [stringRound_apply]
  split
  · exact nofun
  · rename_i after taken
    rw [taken] at ends
    exact .mono (.bind fun c next escaped => advances_again (escape_shorter escaped)) ends
  · exact nofun

theorem string_agrees (c : Char) (plain : c.toNat < 128) :
    Agrees source (c :: rest) (c :: rest) string (Grammar.string (c :: rest)) := by
  have run : Grammar.string (c :: rest) =
      (do return String.ofList (← Text.Reader.iterate Grammar.stringRound []) : Parser _) rest :=
    rfl
  rw [run]
  refine .advance plain (.mono (.bind ?_ fun read next _ _ => .pure _))
  exact .iterate (fun read next _ _ => ⟨stringRound_follows read next,
    stringRound_advances read⟩) []

/-! ## Keywords and keys -/

theorem isKeywordChar_plain {c : Char} (h : isKeywordChar c = true) : c.toNat < 128 := by
  simp only [isKeywordChar, Char.isAlphanum, Bool.or_eq_true, beq_iff_eq] at h
  obtain (((letter | digit) | rfl) | rfl) | rfl := h
  · exact lt_of_isAlpha letter
  · exact lt_of_isDigit digit
  · decide
  · decide
  · decide

/-- Going back over spaces leads to the end of the text without them. -/
theorem backOverSpaces_agrees {k : Unit → Cursor β} {result : Except Failure (β × List Char)}
    {run : List Char} (plain : ∀ c ∈ run, c.toNat < 128) (ends : run ++ rest <:+ text)
    (h : Agrees source text ((run ++ rest).drop (Text.dropEndWhile (· == ' ') run).length) (k ())
      result) :
    Agrees source text rest (backOverSpaces run.length >>= k) result := by
  induction run using List.reverseRecOn generalizing rest with
  | nil => exact h
  | append_singleton run c ih =>
    have shift : run ++ [c] ++ rest = run ++ c :: rest := by simp
    have hc : c.toNat < 128 := plain c (by simp)
    rw [shift] at ends h
    have behind : c :: rest <:+ text := (List.suffix_append run _).trans ends
    rw [List.length_append, List.length_singleton, backOverSpaces]
    simp only [bind_assoc]
    refine .get (.byteBefore hc behind ?_)
    by_cases space : c = ' '
    · subst space
      rw [if_pos rfl, bind_assoc]
      refine .of_inside fun inside => ?_
      have back : place source rest - 1 = place source (' ' :: rest) := by
        rw [place_cons hc (behind.trans inside), Nat.add_sub_cancel]
      have dropped : Text.dropEndWhile (· == ' ') (run ++ [' ']) =
          Text.dropEndWhile (· == ' ') run := List.rdropWhile_concat_pos _ _ _ rfl
      rw [dropped] at h
      rw [back]
      exact .moveTo behind (ih (fun d member => plain d (List.mem_append_left _ member)) ends h)
    · rw [if_neg space, pure_bind]
      have kept : Text.dropEndWhile (· == ' ') (run ++ [c]) = run ++ [c] :=
        List.rdropWhile_concat_neg _ _ _ (by simpa using space)
      rw [kept, ← shift, List.drop_left] at h
      exact h

theorem dropEndWhile_cons {p : Char → Bool} {c : Char} (kept : p c = false) (text : List Char) :
    Text.dropEndWhile p (c :: text) = c :: Text.dropEndWhile p text := by
  rw [Text.dropEndWhile, List.reverse_cons, List.dropWhile_append, Text.dropEndWhile]
  split
  · rename_i none
    rw [List.isEmpty_iff.mp none]
    simp [kept]
  · simp

theorem keyword_agrees (unspaced : rest.head? ≠ some ' ') :
    Agrees source rest rest keyword (Grammar.keyword rest) := by
  rw [keyword_apply]
  have starts : (codes rest).head?.any (fun c => c.isAlpha || c == '_' || c == ' ') ↔
      rest.head?.any (fun c => c.isAlpha || c == '_') := by
    rw [any_head?_codes ((steady_isAlpha.or (steady_beq (by decide))).or (steady_beq (by decide)))]
    cases rest with
    | nil => rfl
    | cons c rest =>
      have hc : c ≠ ' ' := by simpa using unspaced
      simp [hc]
  refine .get (.peek (.choice starts (fun letter => ?_) fun _ => .fail _))
  cases rest with
  | nil => cases letter
  | cons c rest =>
    have first : isKeywordChar c = true := by
      simp only [List.head?_cons, Option.any_some, Bool.or_eq_true] at letter
      simp only [isKeywordChar, Char.isAlphanum, Bool.or_eq_true]
      tauto
    have plain := isKeywordChar_plain first
    have hc : c ≠ ' ' := by simpa using unspaced
    have parts := List.takeWhile_append_dropWhile (p := isKeywordChar) (l := rest)
    rw [List.takeWhile_cons_of_pos first]
    refine .advance plain (.skipWhile steady_isKeywordChar (.get ?_))
    have runPlain : ∀ d ∈ rest.takeWhile isKeywordChar, d.toNat < 128 := fun d member =>
      isKeywordChar_plain (List.mem_takeWhile_imp member)
    generalize rest.takeWhile isKeywordChar = run at *
    generalize rest.dropWhile isKeywordChar = after at *
    subst parts
    obtain ⟨spaces, name⟩ := Text.dropEndWhile_prefix (· == ' ') run
    rw [dropEndWhile_cons (by simpa using hc)]
    generalize hread : Text.dropEndWhile (· == ' ') run = read at name
    refine .of_inside fun inside => ?_
    have ends := List.suffix_cons c (run ++ after)
    have most : place source after - (place source (c :: (run ++ after)) + 1) = run.length := by
      rw [← place_cons plain inside, place_append run (ends.trans inside), Nat.add_sub_cancel_left,
        ← length_codes, codes_eq_self runPlain]
    have dropped : (run ++ after).drop read.length = spaces ++ after := by
      rw [← name, List.append_assoc, List.drop_left]
    rw [most]
    refine backOverSpaces_agrees runPlain ends (.get (.slice (?_ : _ = (c :: read) ++ _)
      (List.suffix_refl _) ?_))
    · rw [hread, dropped, ← name]
      simp
    · rw [hread]
      exact .pure _

theorem keyEnd_follows (key : VariantKey) :
    Follows source (do skipInlineBlank; expect ']'; return key : Cursor VariantKey)
      (do Text.Reader.skipInlineBlank; Grammar.Parser.expect ']'; return key) := by
  intro rest
  exact .skipInlineBlank (.mono ((expect_follows (by decide) _).bind fun _ _ _ _ => .pure key))

theorem variantKey_follows : Follows source variantKey Grammar.variantKey := by
  intro rest
  have unspaced : (rest.dropWhile Text.isInlineBlank).head? ≠ some ' ' := by
    have head := List.head?_dropWhile_not Text.isInlineBlank rest
    intro space
    rw [space] at head
    cases head
  have starts : (codes (rest.dropWhile Text.isInlineBlank)).head?.any
      (fun c => c.isDigit || c == '-') ↔
      (rest.dropWhile Text.isInlineBlank).head?.any (fun c => c.isDigit || c == '-') := by
    rw [any_head?_codes (steady_isDigit.or (steady_beq (by decide)))]
  rw [Grammar.variantKey, Text.Reader.skipInlineBlank_bind_apply, Text.Reader.peek_bind_apply,
    choice_apply]
  refine .skipInlineBlank (.peek (.mono (.choice starts ?_ ?_)))
  · exact fun _ => (number_follows _).map.bind fun key next _ _ => (keyEnd_follows key next).mono
  · exact fun _ => (keyword_agrees unspaced).map.bind fun key next _ _ =>
      (keyEnd_follows key next).mono

end Fluent.Cursor
