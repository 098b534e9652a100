import TapeMachine.Proofs.Grammar.Search

/-!
Where a match can fail. Every place that a match comes to lies in the text, and so does the furthest
place at which a name was tried in vain.
-/

namespace TapeMachine.Grammar

variable {Name : Type} {length : Nat}

/-- The place of a text of this length. -/
def Cursor.Within (length : Nat) (cursor : Cursor) : Prop :=
  cursor.offset + cursor.rest.length = length

structure Result.Within (length : Nat) (result : Result Name) : Prop where
  cursor : ∀ found, result.1 = some found → found.cursor.Within length
  furthest : result.2.furthest ≤ length

namespace Cursor.Within

variable {cursor : Cursor}

theorem offset_le (h : cursor.Within length) : cursor.offset ≤ length :=
  Nat.le_of_add_right_le (Nat.le_of_eq h)

/-- A cursor that goes on by as many characters as it leaves behind stays in the text. -/
theorem advance {count : Nat} {rest : List Char} (h : cursor.Within length)
    (hrest : cursor.rest.length = count + rest.length) :
    (cursor.advance count rest).Within length := by
  simp only [Cursor.Within, Cursor.advance] at h ⊢
  omega

theorem skipGap (h : cursor.Within length) : cursor.skipGap.Within length := by
  apply h.advance
  rw [← List.length_append, List.takeWhile_append_dropWhile]

theorem contextSkipGap (context : Context) (h : cursor.Within length) :
    (context.skipGap cursor).Within length := by
  rw [Context.skipGap]
  split
  · exact h
  · exact h.skipGap

end Cursor.Within

namespace Result.Within

variable {attempts : Attempts Name}

theorem none (h : attempts.furthest ≤ length) : Within length (.none, attempts) :=
  ⟨nofun, h⟩

theorem some {found : Found Name} (hcursor : found.cursor.Within length)
    (h : attempts.furthest ≤ length) : Within length (.some found, attempts) :=
  ⟨fun _ heq => Option.some.inj heq ▸ hcursor, h⟩

theorem found {found : Found Name} (h : Within length (.some found, attempts)) :
    found.cursor.Within length :=
  h.cursor found rfl

end Result.Within

theorem Attempts.furthest_note_le (attempts before : Attempts Name) (name : Name) {offset : Nat}
    (purpose : Purpose) (h : attempts.furthest ≤ length) (hoffset : offset ≤ length) :
    (attempts.note before name offset purpose).furthest ≤ length := by
  simp only [note]
  split
  · exact h
  · split
    · split <;> exact hoffset
    · exact h

theorem repeatBody_within {context : Context} {body : Cursor → Attempts Name → Result Name}
    (hbody : ∀ cursor attempts, cursor.Within length → attempts.furthest ≤ length →
      Result.Within length (body cursor attempts))
    (bound : List Char) (cursor : Cursor) (nodes : List (Node Name)) (attempts : Attempts Name)
    (hcursor : cursor.Within length) (hattempts : attempts.furthest ≤ length) :
    Result.Within length (repeatBody context body bound cursor nodes attempts) := by
  induction bound generalizing cursor nodes attempts with
  | nil =>
      have hnext := hbody _ attempts (hcursor.contextSkipGap context) hattempts
      rw [repeatBody]
      generalize body (context.skipGap cursor) attempts = result at hnext ⊢
      obtain ⟨_ | found, later⟩ := result
      · exact .some hcursor hnext.furthest
      · exact .some hnext.found hnext.furthest
  | cons _ bound ih =>
      have hnext := hbody _ attempts (hcursor.contextSkipGap context) hattempts
      rw [repeatBody]
      generalize body (context.skipGap cursor) attempts = result at hnext ⊢
      obtain ⟨_ | found, later⟩ := result
      · exact .some hcursor hnext.furthest
      · exact ih _ _ _ hnext.found hnext.furthest

theorem Pattern.run_within (pattern : Pattern Name) (context : Context) (cursor : Cursor)
    (attempts : Attempts Name) (hcursor : cursor.Within length)
    (hattempts : attempts.furthest ≤ length) :
    Result.Within length (pattern.run context cursor attempts) := by
  induction pattern generalizing context cursor attempts with
  | start | finish =>
      rw [run]
      split
      · exact .some hcursor hattempts
      · exact .none hattempts
  | any =>
      obtain ⟨text, offset⟩ := cursor
      cases text with
      | nil => exact .none hattempts
      | cons c rest => exact .some (hcursor.advance (Nat.add_comm ..)) hattempts
  | oneOf allowed =>
      obtain ⟨text, offset⟩ := cursor
      cases text with
      | nil => exact .none hattempts
      | cons c rest =>
          simp only [run]
          split
          · exact .some (hcursor.advance (Nat.add_comm ..)) hattempts
          · exact .none hattempts
  | exactly text =>
      rw [run]
      cases hafter : after? text cursor.rest with
      | none => exact .none hattempts
      | some rest =>
          refine .some (hcursor.advance ?_) hattempts
          rw [after?_eq_some_iff.1 hafter, List.length_append]
  | seq first second ihf ihs =>
      have hfirst := ihf context cursor attempts hcursor hattempts
      rw [run]
      generalize first.run context cursor attempts = result at hfirst ⊢
      obtain ⟨_ | one, later⟩ := result
      · exact .none hfirst.furthest
      · have hsecond := ihs context _ later (hfirst.found.contextSkipGap context) hfirst.furthest
        dsimp only
        generalize second.run context (context.skipGap one.cursor) later = result at hsecond ⊢
        obtain ⟨_ | two, latest⟩ := result
        · exact .none hsecond.furthest
        · exact .some hsecond.found hsecond.furthest
  | either first second ihf ihs =>
      have hfirst := ihf context cursor attempts hcursor hattempts
      rw [run]
      generalize first.run context cursor attempts = result at hfirst ⊢
      obtain ⟨_ | one, later⟩ := result
      · exact ihs context cursor later hcursor hfirst.furthest
      · exact hfirst
  | optional body ih =>
      have hbody := ih context cursor attempts hcursor hattempts
      rw [run]
      generalize body.run context cursor attempts = result at hbody ⊢
      obtain ⟨_ | found, later⟩ := result
      · exact .some hcursor hbody.furthest
      · exact hbody
  | many body ih =>
      have hbody := ih context cursor attempts hcursor hattempts
      rw [run]
      generalize body.run context cursor attempts = result at hbody ⊢
      obtain ⟨_ | found, later⟩ := result
      · exact .some hcursor hbody.furthest
      · exact repeatBody_within (ih context) _ _ _ _ hbody.found hbody.furthest
  | ahead body ih =>
      have hbody := ih { context with purpose := context.purpose.ahead } cursor attempts hcursor
        hattempts
      rw [run]
      generalize body.run _ cursor attempts = result at hbody ⊢
      obtain ⟨_ | found, later⟩ := result
      · exact .none hbody.furthest
      · exact .some hcursor hbody.furthest
  | notAhead body ih =>
      have hbody := ih { context with purpose := context.purpose.notAhead } cursor attempts hcursor
        hattempts
      rw [run]
      generalize body.run _ cursor attempts = result at hbody ⊢
      obtain ⟨_ | found, later⟩ := result
      · exact .some hcursor hbody.furthest
      · exact .none hbody.furthest
  | named name joined body ih =>
      have hbody := ih { context with joined := context.joined || joined } cursor attempts hcursor
        hattempts
      rw [run]
      generalize body.run _ cursor attempts = result at hbody ⊢
      obtain ⟨_ | found, later⟩ := result
      · dsimp only
        split
        · exact .none hbody.furthest
        · exact .none (later.furthest_note_le _ _ _ hbody.furthest hcursor.offset_le)
      · dsimp only
        split
        · exact .some hbody.found (later.furthest_note_le _ _ _ hbody.furthest hcursor.offset_le)
        · exact .some hbody.found hbody.furthest

/-- What a pattern finds stands in the same text. -/
theorem Pattern.within_of_find? {pattern : Pattern Name} {context : Context} {cursor : Cursor}
    {found : Found Name} (hcursor : cursor.Within length)
    (h : pattern.find? context cursor = .some found) : found.cursor.Within length := by
  have hrun := pattern.run_within context cursor .empty hcursor (Nat.zero_le length)
  rw [← pattern.run_fst context cursor .empty] at h
  exact hrun.cursor found h

/-- A text that does not match fails at a place in it. -/
theorem Pattern.furthest_le_of_parse {pattern : Pattern Name} {text : List Char}
    {attempts : Attempts Name} (h : pattern.parse text = .error attempts) :
    attempts.furthest ≤ text.length := by
  have hrun := pattern.run_within ⟨.consume, false⟩ (.ofText text) .empty (Nat.zero_add _)
    (Nat.zero_le text.length)
  unfold parse at h
  split at h
  · next hnone =>
      cases h
      rw [hnone] at hrun
      exact hrun.furthest
  · contradiction

end TapeMachine.Grammar
