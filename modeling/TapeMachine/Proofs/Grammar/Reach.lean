import TapeMachine.Proofs.Grammar.Furthest
import TapeMachine.Proofs.Grammar.Repetition

/-!
The reach of a match: the furthest place at which it tries a name in vain, or finds one where it must
not be. Of its record of failures a match keeps just this place through all backtracking, so the
place that an error points at is the reach of the pattern, and this is computed part by part.
-/

namespace TapeMachine.Grammar

variable {Name : Type}

/-- A name that is noted for a place keeps the furthest place that was known, or moves it there. -/
theorem Attempts.furthest_note (attempts before : Attempts Name) (name : Name) (offset : Nat)
    (purpose : Purpose) :
    (attempts.note before name offset purpose).furthest = max attempts.furthest offset := by
  rw [note]
  split
  · next hone =>
      -- An attempt that is kept for this place is one that stands there.
      have hplace : attempts.furthest = offset := by
        by_contra hne
        rw [countAt, atPlace, if_neg hne] at hone
        contradiction
      rw [hplace, Nat.max_self]
  · split
    · next hle =>
        rw [Nat.max_eq_right hle]
        dsimp only
        split <;> rfl
    · next hnot => rw [Nat.max_eq_left (Nat.le_of_not_le hnot)]

/-- The reach of a repetition after its first match, by the reach of its body. -/
def repeatReach (context : Context) (search : Cursor → Option (Found Name)) (reach : Cursor → Nat) :
    List Char → Cursor → Nat
  | [], cursor => reach (context.skipGap cursor)
  | _ :: bound, cursor =>
      max (reach (context.skipGap cursor)) <| match search (context.skipGap cursor) with
        | none => 0
        | some found => repeatReach context search reach bound found.cursor

namespace Pattern

/-- The furthest place at which a name is tried in vain, or found in vain where its absence is asked
for. Without such a place it is the start of the text. Names inside joined patterns do not count. -/
def reach : Pattern Name → Context → Cursor → Nat
  | start, _, _ | finish, _, _ | any, _, _ | oneOf _, _, _ | exactly _, _, _ => 0
  | seq first second, context, cursor =>
      max (first.reach context cursor) <| match first.find? context cursor with
        | none => 0
        | some found => second.reach context (context.skipGap found.cursor)
  | either first second, context, cursor =>
      max (first.reach context cursor) <| match first.find? context cursor with
        | none => second.reach context cursor
        | some _ => 0
  | optional body, context, cursor => body.reach context cursor
  | many body, context, cursor =>
      max (body.reach context cursor) <| match body.find? context cursor with
        | none => 0
        | some found =>
            repeatReach context (body.find? context) (body.reach context) found.cursor.rest
              found.cursor
  | ahead body, context, cursor =>
      body.reach { context with purpose := context.purpose.ahead } cursor
  | notAhead body, context, cursor =>
      body.reach { context with purpose := context.purpose.notAhead } cursor
  | named _ joined body, context, cursor =>
      let inner := { context with joined := context.joined || joined }
      let found := (body.find? inner cursor).isSome
      max (body.reach inner cursor)
        (if !context.joined && found == (context.purpose = .absent) then cursor.offset else 0)

end Pattern

theorem repeatBody_snd {context : Context} {body : Cursor → Attempts Name → Result Name}
    {search : Cursor → Option (Found Name)} {reach : Cursor → Nat}
    (hfst : ∀ cursor attempts, (body cursor attempts).1 = search cursor)
    (hsnd : ∀ cursor attempts, (body cursor attempts).2.furthest =
      max attempts.furthest (reach cursor))
    (bound : List Char) (cursor : Cursor) (nodes : List (Node Name)) (attempts : Attempts Name) :
    (repeatBody context body bound cursor nodes attempts).2.furthest =
      max attempts.furthest (repeatReach context search reach bound cursor) := by
  induction bound generalizing cursor nodes attempts with
  | nil =>
      rw [repeatBody, repeatReach, ← hsnd]
      rcases body (context.skipGap cursor) attempts with ⟨_ | found, later⟩ <;> rfl
  | cons _ bound ih =>
      rw [repeatBody, repeatReach, ← hfst _ attempts, ← Nat.max_assoc, ← hsnd]
      rcases body (context.skipGap cursor) attempts with ⟨_ | found, later⟩
      · exact (Nat.max_zero _).symm
      · exact ih ..

/-- After a match the furthest place is the one known before or the reach of the pattern. -/
theorem Pattern.run_snd (pattern : Pattern Name) (context : Context) (cursor : Cursor)
    (attempts : Attempts Name) :
    (pattern.run context cursor attempts).2.furthest =
      max attempts.furthest (pattern.reach context cursor) := by
  induction pattern generalizing context cursor attempts with
  | start | finish | exactly => exact (Nat.max_zero _).symm
  | any | oneOf =>
      rw [run, reach, Nat.max_zero]
      cases cursor.rest <;> rfl
  | seq first second ihf ihs =>
      rw [run, reach, ← first.run_fst context cursor attempts, ← Nat.max_assoc, ← ihf]
      rcases first.run context cursor attempts with ⟨_ | found, later⟩
      · exact (Nat.max_zero _).symm
      · dsimp only
        rw [← ihs]
        rcases second.run context (context.skipGap found.cursor) later with ⟨_ | last, latest⟩ <;> rfl
  | either first second ihf ihs =>
      rw [run, reach, ← first.run_fst context cursor attempts, ← Nat.max_assoc, ← ihf]
      rcases first.run context cursor attempts with ⟨_ | found, later⟩
      · exact ihs ..
      · exact (Nat.max_zero _).symm
  | optional body ih =>
      rw [run, reach, ← ih]
      rcases body.run context cursor attempts with ⟨_ | found, later⟩ <;> rfl
  | many body ih =>
      rw [run, reach, ← body.run_fst context cursor attempts, ← Nat.max_assoc, ← ih]
      rcases body.run context cursor attempts with ⟨_ | found, later⟩
      · exact (Nat.max_zero _).symm
      · exact repeatBody_snd (body.run_fst context) (ih context) ..
  | ahead body ih | notAhead body ih =>
      rw [run, reach, ← ih]
      rcases body.run _ cursor attempts with ⟨_ | found, later⟩ <;> rfl
  | named name joined body ih =>
      rw [run, reach, ← body.run_fst _ cursor attempts, ← Nat.max_assoc, ← ih]
      rcases body.run _ cursor attempts with ⟨_ | found, later⟩
      all_goals
        cases hjoined : context.joined <;> cases hpurpose : context.purpose <;>
          simp [Attempts.furthest_note]

namespace Pattern

/-- The place that an error points at. -/
theorem furthest_of_parse {pattern : Pattern Name} {text : List Char} {attempts : Attempts Name}
    (h : pattern.parse text = .error attempts) :
    attempts.furthest = pattern.reach .top (.ofText text) := by
  have hrun := pattern.run_snd .top (.ofText text) .empty
  rw [parse, ← Context.top] at h
  split at h
  · next hnone =>
      cases h
      rw [hnone] at hrun
      exact hrun.trans (Nat.zero_max _)
  · contradiction

/-! Patterns without names of their own. -/

/-- Whether no name is tried in a pattern. -/
def isSilent : Pattern Name → Bool
  | start | finish | any | oneOf _ | exactly _ => true
  | seq first second | either first second => first.isSilent && second.isSilent
  | optional body | many body | ahead body | notAhead body => body.isSilent
  | named _ _ _ => false

end Pattern

theorem repeatReach_eq_zero {context : Context} {search : Cursor → Option (Found Name)}
    {reach : Cursor → Nat} (h : ∀ cursor, reach cursor = 0) (bound : List Char) (cursor : Cursor) :
    repeatReach context search reach bound cursor = 0 := by
  induction bound generalizing cursor with
  | nil => exact h _
  | cons _ bound ih =>
      rw [repeatReach, h, Nat.zero_max]
      split
      · rfl
      · exact ih _

namespace Pattern

/-- Nothing is noted where there are no names, and nothing in a joined pattern. -/
theorem reach_eq_zero {pattern : Pattern Name} {context : Context}
    (h : pattern.isSilent = true ∨ context.joined = true) (cursor : Cursor) :
    pattern.reach context cursor = 0 := by
  induction pattern generalizing context cursor with
  | start | finish | any | oneOf | exactly => rfl
  | seq first second ihf ihs | either first second ihf ihs =>
      simp only [isSilent, Bool.and_eq_true] at h
      rw [reach, ihf (h.imp_left And.left), Nat.zero_max]
      split
      · first | rfl | exact ihs (h.imp_left And.right) _
      · first | rfl | exact ihs (h.imp_left And.right) _
  | optional body ih => exact ih h cursor
  | many body ih =>
      rw [reach, ih h, Nat.zero_max]
      split
      · rfl
      · exact repeatReach_eq_zero (ih h) ..
  | ahead body ih | notAhead body ih =>
      rw [reach]
      refine ih ?_ cursor
      exact h
  | named name joined body ih =>
      have hjoined : context.joined = true := h.resolve_left nofun
      rw [reach, ih (.inr (by rw [hjoined]; rfl)), hjoined]
      rfl

theorem reach_le_of_silent {pattern : Pattern Name} {context : Context}
    (h : pattern.isSilent = true ∨ context.joined = true) (cursor : Cursor) (stop : Nat) :
    pattern.reach context cursor ≤ stop := by
  rw [reach_eq_zero h]
  exact Nat.zero_le stop

theorem reach_either_le {first second : Pattern Name} {context : Context} {cursor : Cursor}
    {stop : Nat} (hfirst : first.reach context cursor ≤ stop)
    (hsecond : second.reach context cursor ≤ stop) :
    (either first second).reach context cursor ≤ stop := by
  rw [reach]
  refine Nat.max_le.2 ⟨hfirst, ?_⟩
  split
  · exact hsecond
  · exact Nat.zero_le stop

/-! A named pattern at a place. -/

section Named

variable {name : Name} {body : Pattern Name} {joined : Bool} {cursor : Cursor}

theorem reach_named_of_none (h : (named name joined body).find? .top cursor = none) :
    cursor.offset ≤ (named name joined body).reach .top cursor := by
  rw [find?, Option.map_eq_none_iff] at h
  rw [reach, h]
  exact Nat.le_max_right ..

theorem reach_named_le {purpose : Purpose} {stop : Nat} (hoffset : cursor.offset ≤ stop)
    (h : body.reach ⟨purpose, joined⟩ cursor ≤ stop) :
    (named name joined body).reach ⟨purpose, false⟩ cursor ≤ stop := by
  rw [reach]
  refine Nat.max_le.2 ⟨h, ?_⟩
  split
  · exact hoffset
  · exact Nat.zero_le stop

end Named

/-! Sequences. -/

theorem reach_seq_of_some {first : Pattern Name} {context : Context} {cursor : Cursor}
    {one : Found Name} (h : first.find? context cursor = some one) (second : Pattern Name) :
    (seq first second).reach context cursor =
      max (first.reach context cursor) (second.reach context (context.skipGap one.cursor)) := by
  rw [reach, h]

theorem reach_seq_of_none {first : Pattern Name} {context : Context} {cursor : Cursor}
    (h : first.find? context cursor = none) (second : Pattern Name) :
    (seq first second).reach context cursor = first.reach context cursor := by
  rw [reach, h]
  exact Nat.max_zero _

/-- How a sequence is bracketed makes no difference. -/
theorem reach_seq_assoc (first second third : Pattern Name) (context : Context) (cursor : Cursor) :
    (seq (seq first second) third).reach context cursor =
      (seq first (seq second third)).reach context cursor := by
  cases hone : first.find? context cursor with
  | none =>
      rw [reach_seq_of_none (find?_seq_of_none hone second), reach_seq_of_none hone,
        reach_seq_of_none hone]
  | some one =>
      rw [reach_seq_of_some hone]
      cases htwo : second.find? context (context.skipGap one.cursor) with
      | none =>
          have hboth : (seq first second).find? context cursor = none := by
            rw [find?_seq_of_some hone, htwo, Option.map_none]
          rw [reach_seq_of_none hboth, reach_seq_of_some hone, reach_seq_of_none htwo]
      | some two =>
          rw [reach_seq_of_some (find?_seq hone htwo), reach_seq_of_some hone,
            reach_seq_of_some htwo, Nat.max_assoc]

end Pattern

/-! Repetitions. -/

section RepeatReach

variable {search : Cursor → Option (Found Name)} {reach : Cursor → Nat}

theorem Shrinks.repeatReach_bound (hsearch : Shrinks search) (bound other : List Char)
    (cursor : Cursor) (hbound : cursor.rest.length ≤ bound.length)
    (hother : cursor.rest.length ≤ other.length) :
    repeatReach .top search reach bound cursor = repeatReach .top search reach other cursor := by
  have hskip := cursor.length_skipGap_le
  induction bound generalizing other cursor with
  | nil =>
      have hnone := hsearch.eq_none_of_nil hbound
      cases other with
      | nil => rfl
      | cons _ other => simp only [repeatReach, hnone, Nat.max_zero]
  | cons _ bound ih =>
      cases hfound : search (Context.top.skipGap cursor) with
      | none => cases other <;> simp only [repeatReach, hfound, Nat.max_zero]
      | some found =>
          have hless := hsearch _ _ hfound
          rw [Context.skipGap_top] at hless
          cases other with
          | nil =>
              rw [List.length_nil] at hother
              omega
          | cons _ other =>
              simp only [repeatReach, hfound]
              rw [List.length_cons] at hbound hother
              rw [ih other found.cursor (by omega) (by omega) found.cursor.length_skipGap_le]

end RepeatReach

namespace Pattern

variable {body : Pattern Name}

theorem reach_many_of_none {cursor : Cursor} (h : body.find? .top cursor = none) :
    (many body).reach .top cursor = body.reach .top cursor := by
  rw [reach, h]
  exact Nat.max_zero _

/-- After one match a repetition reaches as far as from there on. -/
theorem reach_many_of_some (hbody : Shrinks (body.find? .top)) {cursor : Cursor} {found : Found Name}
    (h : body.find? .top cursor = some found) :
    (many body).reach .top cursor =
      max (body.reach .top cursor) ((many body).reach .top found.cursor.skipGap) := by
  rw [reach, h, reach]
  congr 1
  dsimp only
  cases hrest : found.cursor.rest with
  | nil =>
      have hnone := hbody.eq_none_of_nil (Nat.le_of_eq (congrArg List.length hrest))
      rw [Context.skipGap_top] at hnone
      rw [repeatReach, Context.skipGap_top, hnone]
      exact (Nat.max_zero _).symm
  | cons c rest =>
      rw [repeatReach, Context.skipGap_top]
      congr 1
      cases hnext : body.find? .top found.cursor.skipGap with
      | none => rfl
      | some next =>
          have hless := hbody _ _ hnext
          have hskip := found.cursor.length_skipGap_le
          rw [hrest, List.length_cons] at hskip
          exact hbody.repeatReach_bound _ _ _ (by omega) (Nat.le_refl _)

/-- A repetition that does not begin leaves what follows it to be tried at the same place. -/
theorem reach_many_seq_of_none {cursor : Cursor} (h : body.find? .top cursor.skipGap = none)
    (next : Pattern Name) :
    (seq (many body) next).reach .top cursor.skipGap =
      max (body.reach .top cursor.skipGap) (next.reach .top cursor.skipGap) := by
  have hmany : (many body).find? .top cursor.skipGap = some ⟨cursor.skipGap, []⟩ := by
    rw [find?, h]
  rw [reach_seq_of_some hmany, reach_many_of_none h, Context.skipGap_top, Cursor.skipGap_skipGap]

theorem reach_many_seq_of_some (hbody : Shrinks (body.find? .top)) {cursor : Cursor}
    {found : Found Name} (h : body.find? .top cursor.skipGap = some found) (next : Pattern Name) :
    (seq (many body) next).reach .top cursor.skipGap =
      max (body.reach .top cursor.skipGap)
        ((seq (many body) next).reach .top found.cursor.skipGap) := by
  obtain ⟨last, hlast, hcursor, -⟩ := find?_many hbody cursor
  obtain ⟨later, hlater, hother, -⟩ := find?_many hbody found.cursor
  have hsame : later.cursor.skipGap = last.cursor.skipGap := by
    rw [hcursor, hother, repeated_of_some hbody h]
  rw [reach_seq_of_some hlast, reach_seq_of_some hlater, reach_many_of_some hbody h,
    Context.skipGap_top, Context.skipGap_top, hsame, Nat.max_assoc]

end Pattern

end TapeMachine.Grammar
