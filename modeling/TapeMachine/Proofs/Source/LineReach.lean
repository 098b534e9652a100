import TapeMachine.Proofs.Grammar.Reach
import TapeMachine.Proofs.Source.Layout

/-!
The reach of the patterns for lines. None of them takes up a line end but the one that is meant to,
and none tries a name beyond the end of the line it stands on.
-/

namespace TapeMachine.Source

open Grammar Pattern

/-- The cursor stands on a line, which ends at a place with the tail of the text after it. -/
inductive OnLine (tail : List Char) (stop : Nat) : Cursor → Prop where
  | intro {content : List Char} {offset : Nat} (hcontent : IsLine content)
      (hstop : offset + content.length = stop) : OnLine tail stop ⟨content ++ tail, offset⟩

namespace OnLine

variable {tail : List Char} {stop : Nat} {cursor later : Cursor}

theorem offset_le (h : OnLine tail stop cursor) : cursor.offset ≤ stop := by
  cases h with
  | intro _ hstop => exact Nat.le_of_add_right_le (Nat.le_of_eq hstop)

/-- A cursor that goes on over a part of the line stays on it. -/
theorem append (h : OnLine tail stop cursor) (htail : endsLine tail = true) {text : List Char}
    (htext : IsLine text) (hrest : cursor.rest = text ++ later.rest)
    (hoffset : later.offset = cursor.offset + text.length) : OnLine tail stop later := by
  obtain ⟨rest, offset⟩ := later
  cases h with
  | intro hcontent hstop =>
      obtain ⟨left, rfl, rfl⟩ := exists_of_line_eq_append hcontent htail htext hrest
      dsimp only at hoffset
      refine .intro (isLine_append.1 hcontent).2 ?_
      rw [hoffset, Nat.add_assoc, ← List.length_append]
      exact hstop

theorem skipGap (h : OnLine tail stop cursor) (htail : endsLine tail = true) :
    OnLine tail stop cursor.skipGap := by
  obtain ⟨gap, hgap, hrest, hoffset, -⟩ := exists_gap cursor
  exact h.append htail (isLine_gap ⟨gap, hgap⟩) hrest hoffset

end OnLine

/-- On a line the pattern takes up none of what follows the line, and tries no name there. -/
structure StaysOnLine (pattern : Pattern Term) : Prop where
  found : ∀ {tail stop cursor found}, endsLine tail = true → OnLine tail stop cursor →
    pattern.find? .top cursor = some found → OnLine tail stop found.cursor
  reach : ∀ {tail stop cursor}, endsLine tail = true → OnLine tail stop cursor →
    pattern.reach .top cursor ≤ stop

namespace StaysOnLine

variable {first second body : Pattern Term}

theorem seq (hfirst : StaysOnLine first) (hsecond : StaysOnLine second) :
    StaysOnLine (seq first second) where
  found htail hcursor hfound := by
    obtain ⟨one, two, hone, htwo, rfl⟩ := find?_seq_eq_some.1 hfound
    have hnext := (hfirst.found htail hcursor hone).skipGap htail
    have hlast := hsecond.found htail hnext htwo
    exact hlast
  reach {tail stop cursor} htail hcursor := by
    cases hone : first.find? .top cursor with
    | none =>
        rw [reach_seq_of_none hone]
        exact hfirst.reach htail hcursor
    | some one =>
        rw [reach_seq_of_some hone]
        have hnext := (hfirst.found htail hcursor hone).skipGap htail
        exact Nat.max_le.2 ⟨hfirst.reach htail hcursor, hsecond.reach htail hnext⟩

theorem either (hfirst : StaysOnLine first) (hsecond : StaysOnLine second) :
    StaysOnLine (either first second) where
  found htail hcursor hfound := by
    rw [find?, Option.or_eq_some_iff] at hfound
    rcases hfound with hfound | ⟨-, hfound⟩
    · exact hfirst.found htail hcursor hfound
    · exact hsecond.found htail hcursor hfound
  reach htail hcursor :=
    reach_either_le (hfirst.reach htail hcursor) (hsecond.reach htail hcursor)

theorem named (name : Term) (hbody : StaysOnLine body) : StaysOnLine (named name false body) where
  found htail hcursor hfound := by
    obtain ⟨nodes, hinner⟩ := find?_named_eq_some hfound
    have hlast := hbody.found htail hcursor hinner
    exact hlast
  reach htail hcursor := reach_named_le hcursor.offset_le (hbody.reach htail hcursor)

end StaysOnLine

/-- A pattern that takes up a part of the line at each match, and tries its own name at most. -/
theorem staysOnLine_of_text {pattern : Pattern Term}
    (htext : ∀ {cursor found}, pattern.find? .top cursor = some found →
      ∃ text, IsLine text ∧ cursor.rest = text ++ found.cursor.rest)
    (hreach : ∀ cursor, pattern.reach .top cursor ≤ cursor.offset) : StaysOnLine pattern where
  found {tail stop cursor found} htail hcursor hfound := by
    obtain ⟨text, hline, hrest⟩ := htext hfound
    refine hcursor.append htail hline hrest ?_
    have hwithin : found.cursor.offset + found.cursor.rest.length =
        cursor.offset + cursor.rest.length := within_of_find? rfl hfound
    rw [hrest, List.length_append] at hwithin
    omega
  reach _ hcursor := Nat.le_trans (hreach _) hcursor.offset_le

theorem staysOnLine_literal {text : String} (h : IsLine text.toList) :
    StaysOnLine (literal text) := by
  refine staysOnLine_of_text (fun hfound => ?_) fun cursor => ?_
  · exact ⟨text.toList, h, (find?_exactly_eq_some.1 hfound).1⟩
  · exact Nat.zero_le _

theorem staysOnLine_arrow : StaysOnLine arrow :=
  .either (staysOnLine_literal (by decide)) (staysOnLine_literal (by decide))

theorem reach_joined_le (name : Term) (body : Pattern Term) (cursor : Cursor) :
    (named name true body).reach .top cursor ≤ cursor.offset :=
  reach_named_le (Nat.le_refl _) (reach_le_of_silent (.inr rfl) ..)

theorem staysOnLine_token (term : Term) : StaysOnLine (token term) := by
  refine staysOnLine_of_text (fun hfound => ?_) fun cursor => reach_joined_le ..
  obtain ⟨word, hword, hrest, -⟩ := find?_token_eq_some hfound
  exact ⟨word, isLine_word ⟨word, hword⟩, hrest⟩

theorem staysOnLine_comma : StaysOnLine (literal ",") :=
  staysOnLine_literal (by decide)

theorem staysOnLine_rule : StaysOnLine rule := by
  have hleft : StaysOnLine leftSide :=
    .named _ (.seq (.seq (staysOnLine_token _) staysOnLine_comma) (staysOnLine_token _))
  have hright : StaysOnLine rightSide :=
    .named _ (.seq (.seq (.seq (.seq (staysOnLine_token _) staysOnLine_comma) (staysOnLine_token _))
      staysOnLine_comma) (staysOnLine_token _))
  exact .named _ (.seq (.seq hleft staysOnLine_arrow) hright)

theorem staysOnLine_key :
    StaysOnLine (named .key true (oneOrMore (oneOf isKeyCharacter))) := by
  refine staysOnLine_of_text (fun hfound => ?_) fun cursor => reach_joined_le ..
  obtain ⟨key, hrest⟩ := find?_key_eq_some hfound
  exact ⟨key.1, isLine_key key, hrest⟩

theorem staysOnLine_value : StaysOnLine (named .value true restOfLine) where
  found htail hcursor hfound := by
    cases hcursor with
    | intro hcontent hstop =>
        rw [find?_value hcontent htail] at hfound
        cases hfound
        exact @OnLine.intro _ _ [] _ nofun hstop
  reach _ hcursor := Nat.le_trans (reach_joined_le ..) hcursor.offset_le

theorem reach_lineEnd (context : Context) (cursor : Cursor) : lineEnd.reach context cursor = 0 :=
  reach_eq_zero (.inl rfl) cursor

theorem reach_endOfText_le (purpose : Purpose) (cursor : Cursor) :
    endOfText.reach ⟨purpose, false⟩ cursor ≤ cursor.offset :=
  reach_named_le (Nat.le_refl _) (Nat.zero_le _)

theorem reach_rulesKeyword_le (purpose : Purpose) (cursor : Cursor) :
    rulesKeyword.reach ⟨purpose, false⟩ cursor ≤ cursor.offset :=
  reach_named_le (Nat.le_refl _) (reach_le_of_silent (.inl rfl) ..)

/-- The test for the keyword goes on where it stands. -/
theorem staysOnLine_notAhead_rulesKeyword : StaysOnLine (notAhead rulesKeyword) where
  found htail hcursor hfound := by
    obtain ⟨-, rfl⟩ := find?_notAhead_rulesKeyword.1 hfound
    exact hcursor
  reach _ hcursor := Nat.le_trans (reach_rulesKeyword_le ..) hcursor.offset_le

theorem staysOnLine_header : StaysOnLine Source.header :=
  .named _ (.seq (.seq (.seq staysOnLine_notAhead_rulesKeyword staysOnLine_key)
    (staysOnLine_literal (by decide))) staysOnLine_value)

/-- The test for the line's end goes on where it stands. -/
theorem staysOnLine_ahead_end : StaysOnLine (ahead (either lineEnd endOfText)) where
  found {tail stop cursor found} htail hcursor hfound := by
    obtain ⟨text, offset⟩ := cursor
    rw [find?_ahead_end] at hfound
    split at hfound
    · cases hfound
      exact hcursor
    · contradiction
  reach _ hcursor := by
    have hend := Nat.le_trans (reach_endOfText_le .present _) hcursor.offset_le
    exact reach_either_le (reach_le_of_silent (.inl rfl) ..) hend

/-! Lines. -/

section Lines

variable {tail : List Char} {stop : Nat} {cursor : Cursor}

theorem reach_rulesLine_le (h : OnLine tail stop cursor) (htail : endsLine tail = true) :
    rulesLine.reach .top cursor ≤ stop :=
  reach_either_le ((staysOnLine_rule.seq staysOnLine_ahead_end).reach htail h)
    (reach_le_of_silent (.inl rfl) ..)

theorem reach_headerLine_le (h : OnLine tail stop cursor) (htail : endsLine tail = true) :
    headerLine.reach .top cursor ≤ stop := by
  have hhead : (optional (either Source.header comment)).reach .top cursor ≤ stop :=
    reach_either_le (staysOnLine_header.reach htail h) (reach_le_of_silent (.inl rfl) ..)
  rw [headerLine, Pattern.reach]
  refine Nat.max_le.2 ⟨hhead, ?_⟩
  split
  · exact Nat.zero_le stop
  · exact reach_le_of_silent (.inl rfl) ..

end Lines

end TapeMachine.Source
