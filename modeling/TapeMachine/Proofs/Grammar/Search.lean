import TapeMachine.Grammar.Matching

/-!
Matching without its record of failures. Where a pattern matches and what it finds does not depend
on the names that were tried in vain, so statements about matches are about this simpler search.
-/

namespace TapeMachine.Grammar

variable {Name : Type}

theorem after?_eq_some_iff {beginning text rest : List Char} :
    after? beginning text = some rest ↔ text = beginning ++ rest := by
  induction beginning generalizing text with
  | nil => simp [after?, eq_comm]
  | cons c beginning ih =>
      cases text with
      | nil => simp [after?]
      | cons d text =>
          rw [after?]
          split
          · next heq => simp [ih, heq]
          · next hne => simp [hne, eq_comm]

/-- Repeats a body as `repeatBody` does. -/
def repeatSearch (context : Context) (body : Cursor → Option (Found Name)) :
    List Char → Cursor → List (Node Name) → Found Name
  | [], cursor, nodes =>
      match body (context.skipGap cursor) with
      | none => ⟨cursor, nodes.reverse⟩
      | some found => ⟨found.cursor, nodes.reverse ++ found.nodes⟩
  | _ :: bound, cursor, nodes =>
      match body (context.skipGap cursor) with
      | none => ⟨cursor, nodes.reverse⟩
      | some found =>
          repeatSearch context body bound found.cursor (found.nodes.reverse ++ nodes)

namespace Pattern

/-- What a pattern finds at a place. -/
def find? : Pattern Name → Context → Cursor → Option (Found Name)
  | start, _, cursor => if cursor.offset = 0 then some ⟨cursor, []⟩ else none
  | finish, _, cursor => if cursor.rest.isEmpty then some ⟨cursor, []⟩ else none
  | any, _, cursor =>
      match cursor.rest with
      | [] => none
      | _ :: rest => some ⟨cursor.advance 1 rest, []⟩
  | oneOf allowed, _, cursor =>
      match cursor.rest with
      | [] => none
      | c :: rest => if allowed c then some ⟨cursor.advance 1 rest, []⟩ else none
  | exactly text, _, cursor =>
      (after? text cursor.rest).map fun rest => ⟨cursor.advance text.length rest, []⟩
  | seq first second, context, cursor =>
      (first.find? context cursor).bind fun found =>
        (second.find? context (context.skipGap found.cursor)).map fun last =>
          ⟨last.cursor, found.nodes ++ last.nodes⟩
  | either first second, context, cursor =>
      (first.find? context cursor).or (second.find? context cursor)
  | optional body, context, cursor => some ((body.find? context cursor).getD ⟨cursor, []⟩)
  | many body, context, cursor =>
      some <| match body.find? context cursor with
      | none => ⟨cursor, []⟩
      | some found =>
          repeatSearch context (body.find? context) found.cursor.rest found.cursor
            found.nodes.reverse
  | ahead body, context, cursor =>
      (body.find? { context with purpose := context.purpose.ahead } cursor).map fun _ => ⟨cursor, []⟩
  | notAhead body, context, cursor =>
      match body.find? { context with purpose := context.purpose.notAhead } cursor with
      | none => some ⟨cursor, []⟩
      | some _ => none
  | named name joined body, context, cursor =>
      (body.find? { context with joined := context.joined || joined } cursor).map fun found =>
        let text := cursor.rest.take (found.cursor.offset - cursor.offset)
        ⟨found.cursor,
          if context.joined || context.purpose ≠ .consume then []
          else [Node.mk name cursor.offset text found.nodes]⟩

end Pattern

theorem repeatBody_fst {context : Context} {body : Cursor → Attempts Name → Result Name}
    {search : Cursor → Option (Found Name)}
    (h : ∀ cursor attempts, (body cursor attempts).1 = search cursor)
    (bound : List Char) (cursor : Cursor) (nodes : List (Node Name)) (attempts : Attempts Name) :
    (repeatBody context body bound cursor nodes attempts).1 =
      some (repeatSearch context search bound cursor nodes) := by
  induction bound generalizing cursor nodes attempts with
  | nil =>
      rw [repeatBody, repeatSearch, ← h _ attempts]
      rcases body (context.skipGap cursor) attempts with ⟨_ | found, later⟩ <;> rfl
  | cons _ bound ih =>
      rw [repeatBody, repeatSearch, ← h _ attempts]
      rcases body (context.skipGap cursor) attempts with ⟨_ | found, later⟩
      · rfl
      · exact ih ..

/-- A pattern's match is what the search finds, whatever was tried before. -/
theorem Pattern.run_fst (pattern : Pattern Name) (context : Context) (cursor : Cursor)
    (attempts : Attempts Name) :
    (pattern.run context cursor attempts).1 = pattern.find? context cursor := by
  induction pattern generalizing context cursor attempts with
  | start | finish | exactly => rfl
  | any | oneOf =>
      rw [run, find?]
      cases cursor.rest <;> rfl
  | seq first second ihf ihs =>
      rw [run, find?, ← ihf context cursor attempts]
      rcases first.run context cursor attempts with ⟨_ | found, later⟩
      · rfl
      · dsimp only [Option.bind_some]
        rw [← ihs _ _ later]
        rcases second.run context (context.skipGap found.cursor) later with ⟨_ | last, latest⟩ <;> rfl
  | either first second ihf ihs =>
      rw [run, find?, ← ihf context cursor attempts]
      rcases first.run context cursor attempts with ⟨_ | found, later⟩
      · exact ihs ..
      · rfl
  | optional body ih =>
      rw [run, find?, ← ih context cursor attempts]
      rcases body.run context cursor attempts with ⟨_ | found, later⟩ <;> rfl
  | many body ih =>
      rw [run, find?, ← ih context cursor attempts]
      rcases body.run context cursor attempts with ⟨_ | found, later⟩
      · rfl
      · exact repeatBody_fst (ih context) ..
  | ahead body ih | notAhead body ih =>
      rw [run, find?, ← ih _ cursor attempts]
      rcases body.run _ cursor attempts with ⟨_ | found, later⟩ <;> rfl
  | named name joined body ih =>
      rw [run, find?, ← ih _ cursor attempts]
      rcases body.run _ cursor attempts with ⟨_ | found, later⟩
      · dsimp only
        split <;> rfl
      · dsimp only
        split <;> rfl

/-- The context in which a text is matched from its start. -/
def Context.top : Context :=
  ⟨.consume, false⟩

@[simp] theorem Context.skipGap_top (cursor : Cursor) : top.skipGap cursor = cursor.skipGap :=
  rfl

@[simp] theorem Context.skipGap_joined (purpose : Purpose) (cursor : Cursor) :
    skipGap ⟨purpose, true⟩ cursor = cursor :=
  rfl

namespace Pattern

theorem parse_of_find? {pattern : Pattern Name} {text : List Char} {found : Found Name}
    (h : pattern.find? .top (.ofText text) = some found) : pattern.parse text = .ok found.nodes := by
  have hrun := pattern.run_fst .top (.ofText text) .empty
  rw [h] at hrun
  unfold parse
  split
  · next hnone =>
      have hfound : some found = none := hrun.symm.trans (congrArg Prod.fst hnone)
      cases hfound
  · next other attempts hsome =>
      have hfound : some found = some other := hrun.symm.trans (congrArg Prod.fst hsome)
      cases hfound
      rfl

theorem parse_of_find?_none {pattern : Pattern Name} {text : List Char}
    (h : pattern.find? .top (.ofText text) = none) :
    ∃ attempts, pattern.parse text = .error attempts := by
  have hrun := pattern.run_fst .top (.ofText text) .empty
  rw [h] at hrun
  unfold parse
  split
  · next attempts _ => exact ⟨attempts, rfl⟩
  · next other attempts hsome =>
      have hfound : none = some other := hrun.symm.trans (congrArg Prod.fst hsome)
      cases hfound

theorem find?_seq_eq_some {first second : Pattern Name} {context : Context} {cursor : Cursor}
    {found : Found Name} : (seq first second).find? context cursor = some found ↔
      ∃ one two, first.find? context cursor = some one ∧
        second.find? context (context.skipGap one.cursor) = some two ∧
        found = ⟨two.cursor, one.nodes ++ two.nodes⟩ := by
  simp only [find?, Option.bind_eq_some_iff, Option.map_eq_some_iff]
  grind

theorem find?_seq {first second : Pattern Name} {context : Context} {cursor : Cursor}
    {one two : Found Name} (hone : first.find? context cursor = some one)
    (htwo : second.find? context (context.skipGap one.cursor) = some two) :
    (seq first second).find? context cursor = some ⟨two.cursor, one.nodes ++ two.nodes⟩ :=
  find?_seq_eq_some.2 ⟨one, two, hone, htwo, rfl⟩

theorem find?_seq_of_some {first : Pattern Name} {context : Context} {cursor : Cursor}
    {one : Found Name} (h : first.find? context cursor = some one) (second : Pattern Name) :
    (seq first second).find? context cursor =
      (second.find? context (context.skipGap one.cursor)).map fun last =>
        ⟨last.cursor, one.nodes ++ last.nodes⟩ := by
  rw [find?, h, Option.bind_some]

theorem find?_seq_of_none {first : Pattern Name} {context : Context} {cursor : Cursor}
    (h : first.find? context cursor = none) (second : Pattern Name) :
    (seq first second).find? context cursor = none := by
  rw [find?, h, Option.bind_none]

/-- How a sequence is bracketed makes no difference. -/
theorem find?_seq_assoc (first second third : Pattern Name) (context : Context) (cursor : Cursor) :
    (seq (seq first second) third).find? context cursor =
      (seq first (seq second third)).find? context cursor := by
  simp only [find?]
  cases first.find? context cursor with
  | none => rfl
  | some one =>
      simp only [Option.bind_some]
      cases second.find? context (context.skipGap one.cursor) with
      | none => rfl
      | some two =>
          simp only [Option.bind_some, Option.map_some]
          cases third.find? context (context.skipGap two.cursor) with
          | none => rfl
          | some three => simp only [Option.map_some, List.append_assoc]

theorem find?_notAhead (body : Pattern Name) (joined : Bool) (cursor : Cursor) :
    (notAhead body).find? ⟨.consume, joined⟩ cursor =
      if (body.find? ⟨.absent, joined⟩ cursor).isSome then none else some ⟨cursor, []⟩ := by
  rw [find?, show ({ purpose := Purpose.consume.notAhead, joined := joined } : Context) =
    ⟨.absent, joined⟩ from rfl]
  cases body.find? ⟨.absent, joined⟩ cursor <;> rfl

theorem find?_named_top (name : Name) (body : Pattern Name) (cursor : Cursor) :
    (named name false body).find? .top cursor = (body.find? .top cursor).map fun found =>
      ⟨found.cursor, [.mk name cursor.offset
        (cursor.rest.take (found.cursor.offset - cursor.offset)) found.nodes]⟩ :=
  rfl

/-- A named pattern that matched a beginning of the text reports it as one part. -/
theorem find?_named {name : Name} {joined : Bool} {body : Pattern Name} (text rest : List Char)
    {offset : Nat} {nodes : List (Node Name)}
    (h : body.find? ⟨.consume, joined⟩ ⟨text ++ rest, offset⟩ =
      some ⟨⟨rest, offset + text.length⟩, nodes⟩) :
    (named name joined body).find? .top ⟨text ++ rest, offset⟩ =
      some ⟨⟨rest, offset + text.length⟩, [.mk name offset text nodes]⟩ := by
  rw [find?, show ({ Context.top with joined := Context.top.joined || joined } : Context) =
    ⟨.consume, joined⟩ from rfl, h]
  simp [Context.top]

theorem find?_named_eq_some {name : Name} {joined : Bool} {body : Pattern Name} {cursor : Cursor}
    {found : Found Name} (h : (named name joined body).find? .top cursor = some found) :
    ∃ nodes, body.find? ⟨.consume, joined⟩ cursor = some ⟨found.cursor, nodes⟩ := by
  obtain ⟨inner, hinner, rfl⟩ := Option.map_eq_some_iff.1 h
  exact ⟨inner.nodes, hinner⟩

end Pattern

/-! Runs of single characters, as the joined patterns repeat them. -/

/-- The longest beginning of a text whose every character passes a test on what stands from it on. -/
def takeRun (passes : List Char → Bool) : List Char → List Char
  | [] => []
  | c :: rest => if passes (c :: rest) then c :: takeRun passes rest else []

theorem takeRun_cons (passes : List Char → Bool) (c : Char) (rest : List Char) :
    takeRun passes (c :: rest) = if passes (c :: rest) then c :: takeRun passes rest else [] :=
  rfl

theorem takeRun_append_drop (passes : List Char → Bool) (text : List Char) :
    takeRun passes text ++ text.drop (takeRun passes text).length = text := by
  induction text with
  | nil => rfl
  | cons c rest ih =>
      rw [takeRun]
      split
      · exact congrArg (c :: ·) ih
      · rfl

/-- Where a run stops, the text ends or the test fails. -/
theorem drop_takeRun (passes : List Char → Bool) (text : List Char) :
    text.drop (takeRun passes text).length = [] ∨
      passes (text.drop (takeRun passes text).length) = false := by
  induction text with
  | nil => exact .inl rfl
  | cons c rest ih =>
      rw [takeRun]
      cases hpasses : passes (c :: rest) with
      | true => exact ih
      | false => exact .inr hpasses

theorem takeRun_head? (accepts : Char → Bool) (text : List Char) :
    takeRun (·.head?.any accepts) text = text.takeWhile accepts := by
  induction text with
  | nil => rfl
  | cons c rest ih =>
      rw [takeRun, List.takeWhile_cons, ih]
      rfl

/-- The body matches one character where the test passes and nothing elsewhere. -/
structure TakesOne (body : Cursor → Option (Found Name)) (passes : List Char → Bool) : Prop where
  nil : ∀ offset, body ⟨[], offset⟩ = none
  cons : ∀ c rest offset, body ⟨c :: rest, offset⟩ =
    if passes (c :: rest) then some ⟨⟨rest, offset + 1⟩, []⟩ else none

namespace TakesOne

variable {purpose : Purpose} {passes : List Char → Bool}

theorem repeatSearch {body : Cursor → Option (Found Name)} (h : TakesOne body passes)
    (text : List Char) (offset : Nat) :
    repeatSearch ⟨purpose, true⟩ body text ⟨text, offset⟩ [] =
      ⟨⟨text.drop (takeRun passes text).length, offset + (takeRun passes text).length⟩, []⟩ := by
  induction text generalizing offset with
  | nil =>
      rw [Grammar.repeatSearch, Context.skipGap_joined, h.nil]
      rfl
  | cons c rest ih =>
      rw [Grammar.repeatSearch, Context.skipGap_joined, h.cons, takeRun]
      cases passes (c :: rest) with
      | false => rfl
      | true =>
          simp only [↓reduceIte, List.reverse_nil, List.nil_append, ih, List.length_cons,
            List.drop_succ_cons, Nat.add_assoc, Nat.add_comm 1]

variable {body : Pattern Name}

theorem find?_many (h : TakesOne (body.find? ⟨purpose, true⟩) passes) (text : List Char)
    (offset : Nat) :
    (Pattern.many body).find? ⟨purpose, true⟩ ⟨text, offset⟩ =
      some ⟨⟨text.drop (takeRun passes text).length, offset + (takeRun passes text).length⟩, []⟩ := by
  rw [Pattern.find?]
  cases text with
  | nil =>
      rw [h.nil]
      rfl
  | cons c rest =>
      rw [h.cons, takeRun]
      cases passes (c :: rest) with
      | false => rfl
      | true =>
          simp only [↓reduceIte, List.reverse_nil, h.repeatSearch, List.length_cons,
            List.drop_succ_cons, Nat.add_assoc, Nat.add_comm 1]

theorem find?_oneOrMore (h : TakesOne (body.find? ⟨purpose, true⟩) passes) (text : List Char)
    (offset : Nat) :
    (Pattern.oneOrMore body).find? ⟨purpose, true⟩ ⟨text, offset⟩ =
      if takeRun passes text = [] then none
      else some ⟨⟨text.drop (takeRun passes text).length,
        offset + (takeRun passes text).length⟩, []⟩ := by
  rw [Pattern.oneOrMore, Pattern.find?]
  cases text with
  | nil =>
      rw [h.nil]
      rfl
  | cons c rest =>
      rw [h.cons, takeRun]
      cases passes (c :: rest) with
      | false => rfl
      | true =>
          simp [h.find?_many, Nat.add_assoc, Nat.add_comm 1]

end TakesOne

end TapeMachine.Grammar
