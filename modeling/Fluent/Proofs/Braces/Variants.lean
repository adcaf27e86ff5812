import Fluent.Proofs.Braces.Expression

/-!
# Variants inside a pair of braces

Behind the line that ends a variant stands the next one, or the brace that closes all of them. Both
are scanned as code.

* `Settled`: where blank text behind a variant ends;
* `local_variant`: a variant, from its key on;
* `local_variants`: the variants of a placeable.
-/

namespace Fluent.Grammar.Braces

open Fluent.Grammar.Parser Fluent.Text.Reader

variable {r : Nat} {m m' : Mode} {body rest text : List Char} {c : Char}

/-! ## Behind a variant -/

/-- What follows is not blank, and scanned as code. -/
def Settled (m : Mode) (rest : List Char) : Prop :=
  Text.isBlank (ahead rest) = false ∧ m.move (ahead rest) = codeMove false (ahead rest)

theorem stays_blank : Stays (· = .code false) Text.isBlank := by
  rintro c blank _ rfl
  refine ⟨_, rfl, ?_⟩
  rw [move_plainCode (isPlainCode_of_isBlank blank)]
  simp only [Text.isBlank, Bool.or_eq_true, beq_iff_eq] at blank
  obtain ((rfl | rfl) | rfl) | rfl := blank <;> rfl

/-- Blank text in code, or none. -/
theorem walks_blank (body : List Char) :
    Walks 0 (.code false) (body.takeWhile Text.isBlank) [.code false] := by
  obtain ⟨_, rfl, walks⟩ := stays_blank.walks_takeWhile rfl body
  exact walks

theorem settled_code (body : List Char) : Settled (.code false) (body.dropWhile Text.isBlank) :=
  ⟨ahead_dropWhile rfl body, rfl⟩

/-- A run may be taken in two parts. -/
theorem span_span {p q : Char → Bool} (within : ∀ c, p c = true → q c = true)
    (text : List Char) :
    text.takeWhile q = text.takeWhile p ++ (text.dropWhile p).takeWhile q ∧
      text.dropWhile q = (text.dropWhile p).dropWhile q := by
  induction text with
  | nil => exact ⟨rfl, rfl⟩
  | cons c text ih =>
    by_cases here : p c = true
    · simp [here, within c here, ih.1, ih.2]
    · simp [here]

theorem settled_of_code (code : m.move (ahead body) = codeMove false (ahead body)) :
    ∃ m', Walks 0 m (body.takeWhile Text.isBlank) [m'] ∧
      Settled m' (body.dropWhile Text.isBlank) := by
  by_cases blank : Text.isBlank (ahead body) = true
  · obtain ⟨rest, parts⟩ := exists_cons_of_ne body fun brace => by
      rw [brace] at blank
      exact absurd blank (by decide)
    generalize ahead body = c at blank parts code
    subst parts
    obtain ⟨_, rfl, move⟩ := stays_blank c blank _ rfl
    refine ⟨.code false, ?_, settled_code (c :: rest)⟩
    rw [List.takeWhile_cons_of_pos blank]
    exact (walks_stay (code.trans move)).append (walks_blank rest)
  · have visible : Text.isBlank (ahead body) = false := Bool.eq_false_iff.mpr blank
    have none : body.takeWhile Text.isBlank = [] ∧ body.dropWhile Text.isBlank = body := by
      cases body with
      | nil => exact ⟨rfl, rfl⟩
      | cons c body => simp_all
    rw [none.1, none.2]
    exact ⟨m, walks_nil, visible, code⟩

/-- Blank text behind a variant leads to code. -/
theorem walks_ended (ended : Ended m body) :
    ∃ m', Walks 0 m (body.takeWhile Text.isBlank) [m'] ∧
      Settled m' (body.dropWhile Text.isBlank) := by
  obtain ⟨first, rfl, start, ends⟩ := ended
  obtain ⟨depth, inline, known⟩ := walks_indentation first body
  have other := ahead_dropWhile (p := Text.isInlineBlank) rfl body
  obtain ⟨taken, left⟩ := span_span LastLine.isBlank_of_isInlineBlank body
  rw [taken, left]
  rw [← known] at ends
  rw [LineStart] at start
  generalize body.dropWhile Text.isInlineBlank = next at other start ends
  suffices h : ∃ m', Walks 0 (.line first depth) (next.takeWhile Text.isBlank) [m'] ∧
      Settled m' (next.dropWhile Text.isBlank) by
    obtain ⟨m', walks, settled⟩ := h
    exact ⟨m', inline.append walks, settled⟩
  obtain ⟨lineFeed, crlf⟩ := start
  have code : (depth.getD false && !endsLine first (ahead next)) = false := by
    obtain _ | _ | _ := depth
    · rfl
    · rfl
    · rw [ends rfl]
      rfl
  by_cases back : ahead next = '\r'
  · -- A carriage return that ends no line is code on a line that is not indented.
    have flat : depth.getD false = false := by
      rw [back] at code
      cases first <;> simpa [endsLine, endsPattern] using code
    obtain ⟨rest, rfl⟩ := exists_cons_of_ahead back (by decide)
    have move : (Mode.line first depth).move '\r' = some (.stay (.lineReturn first false)) := by
      simp [Mode.move, flat]
    have behind : ahead rest ≠ '\n' := fun here => crlf ⟨rfl, here⟩
    have code : (Mode.lineReturn first false).move (ahead rest) = codeMove false (ahead rest) := by
      simp [Mode.move, behind]
    obtain ⟨m', walks, settled⟩ := settled_of_code code
    exact ⟨m', (walks_stay move).append walks, settled⟩
  · exact settled_of_code (by simp [Mode.move, lineFeed, back, other, code])

theorem local_skipBlank_ended : Local r Ended (fun _ => skipBlank) fun _ => Settled where
  shrinks _ _ := shrinks_skipWhile Text.isBlank
  reads m body ended := by
    obtain ⟨m', walks, settled⟩ := walks_ended ended
    refine localAt_of_all (a := ()) (fun frame => ?_) List.takeWhile_append_dropWhile.symm walks
      settled
    rw [← dropWhile_close frame rfl]
    rfl

/-! ## Variants -/

theorem local_variantValue (nests : Nests r) (key : VariantKey) :
    Local r (fun m _ => m = .value) (fun frame => do
      skipInlineBlank
      match ← pattern (placeable frame.room) with
      | none => fail .variantWithoutValue
      | some value =>
        skipBlank
        return Variant.mk key value) fun _ => Settled := by
  have stays : Stays (· = .value) Text.isInlineBlank := by
    rintro c inline _ rfl
    obtain rfl | rfl := isInlineBlank_cases inline <;> exact ⟨_, rfl, rfl⟩
  refine (local_skipWhile stays).bind fun _ => ?_
  refine ((local_pattern nests).before fun _ _ pre => pre.1).bind fun value => ?_
  cases value with
  | none => exact .fails nofun
  | some value => exact local_skipBlank_ended.bind fun _ => .pure fun _ _ settled => settled

theorem local_variantBody (nests : Nests r) :
    Local r (fun m _ => m = .key false) (fun frame => do
      let key ← variantKey
      skipInlineBlank
      match ← pattern (placeable frame.room) with
      | none => fail .variantWithoutValue
      | some value =>
        skipBlank
        return Variant.mk key value) fun _ => Settled :=
  (local_variantKey false).bind fun key => local_variantValue nests key

/-- A bracket opens the key of a variant. -/
def OpensKey (m : Mode) : Prop := m.move '[' = some (.stay (.key false))

theorem local_variant (nests : Nests r) :
    Local r (fun m _ => OpensKey m) (fun frame => variant (placeable frame.room))
      fun _ => Settled := by
  have bracket : Passes OpensKey '[' (· = .key false) := ⟨by decide, fun m move => ⟨_, rfl, move⟩⟩
  exact (local_expect bracket).bind fun _ => local_variantBody nests

theorem variant_length_lt (nests : Nests r) {value : Variant}
    (read : variant (placeable r) text = .ok (value, rest)) : rest.length < text.length := by
  obtain ⟨⟨⟩, mid, bracket, read⟩ := exists_of_bind_ok read
  have behind := ((local_variantBody nests).shrinks ⟨r, []⟩ rfl mid value rest read).length_le
  rw [expect_apply] at bracket
  split at bracket
  · rename_i here
    obtain ⟨next, rfl⟩ := List.head?_eq_some_iff.mp here
    obtain ⟨-, rfl⟩ := Prod.mk.inj (Except.ok.inj bracket)
    exact Nat.lt_succ_of_le behind
  · cases bracket

section

variable (nests : Nests r) (read : List Variant × Option Nat)

include nests

theorem local_variantAfter (starred : Bool) :
    Local r (fun m _ => OpensKey m) (fun frame => variantAfter (placeable frame.room) read starred)
      (KeptAt (fun _ => Settled) fun _ => Settled) :=
  (local_variant nests).bind fun _ => .pure fun _ _ settled => settled

theorem local_variantRound :
    Local r Settled (fun frame => variantRound (placeable frame.room) read)
      (KeptAt (fun _ => Settled) fun _ => Settled) where
  shrinks _ _ := shrinks_of_agree fun text => Transcription.variantRound_agree
    (Transcription.placeable_agree _ _) (Transcription.asIs_inside text).toWithin read
  reads m body settled := by
    by_cases star : ahead body = '*'
    · obtain ⟨rest, rfl⟩ := exists_cons_of_ahead star (by decide)
      refine ((local_variantAfter nests read true).reads (.code false) rest rfl).skip rfl
        (walks_stay settled.2) fun frame => ?_
      exact variantRound_starred read
    by_cases bracket : ahead body = '[' ∧ ahead body.tail ≠ '['
    · obtain ⟨rest, rfl⟩ := exists_cons_of_ahead bracket.1 (by decide)
      refine ((local_variantAfter nests read false).reads m _ settled.2).congr fun frame => ?_
      refine variantRound_open read fun double => bracket.2 ?_
      exact Option.some_inj.mp ((head?_close frame rest).symm.trans double)
    · refine localAt_of_all (fun frame => variantRound_end read ?_ ?_) (List.nil_append body).symm
        walks_nil settled
      · rw [head?_close]
        exact fun here => star (Option.some_inj.mp here)
      · intro rest opens
        obtain ⟨next, rfl, rfl⟩ := close_eq_cons opens (by decide)
        have double := not_not.mp (not_and.mp bracket rfl)
        exact (head?_close frame next).trans (congrArg some double)

theorem variantRound_onward {next : List Variant × Option Nat}
    (found : variantRound (placeable r) read text = .ok (.again next, rest)) :
    rest.length < text.length := by
  have shorter {starred : Bool} {mid : List Char}
      (found : variantAfter (placeable r) read starred mid = .ok (.again next, rest)) :
      rest.length < mid.length := by
    obtain ⟨value, mid', first, found⟩ := exists_of_bind_ok found
    obtain ⟨-, rfl⟩ := Prod.mk.inj (Except.ok.inj found)
    exact variant_length_lt nests first
  by_cases star : text.head? = some '*'
  · obtain ⟨mid, rfl⟩ := List.head?_eq_some_iff.mp star
    rw [variantRound_starred] at found
    exact Nat.lt_succ_of_lt (shorter found)
  by_cases bracket : ∃ mid, text = '[' :: mid ∧ mid.head? ≠ some '['
  · obtain ⟨mid, rfl, single⟩ := bracket
    rw [variantRound_open read single] at found
    exact shorter found
  · rw [variantRound_end read star fun mid opens => by_contra fun single =>
      bracket ⟨mid, opens, single⟩] at found
    cases found

omit read in
theorem local_variants :
    Local r Settled (fun frame => variants (placeable frame.room)) fun _ => Settled := by
  refine Local.iterate (local_variantRound nests) (fun frame room read text next rest found => ?_) _
  subst room
  exact variantRound_onward nests read found

end

end Fluent.Grammar.Braces
