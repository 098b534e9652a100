import TapeMachine.Grammar.Pattern

/-!
Matching. A pattern is tried at one place of the text. Of two alternatives the first that matches
is taken, a repetition takes as much as it can, and a failed part gives back what it consumed.

The names that were tried in vain at the furthest place are kept through all backtracking. They
tell what could have stood there.
-/

namespace TapeMachine.Grammar

variable {Name : Type}

/-- What a pattern is tried for: its text, only its presence, or its absence. -/
inductive Purpose where
  | consume
  | present
  | absent
deriving DecidableEq

namespace Purpose

def ahead : Purpose → Purpose
  | absent => absent
  | _ => present

def notAhead : Purpose → Purpose
  | absent => present
  | _ => absent

end Purpose

structure Context where
  purpose : Purpose
  joined : Bool
deriving DecidableEq

def Context.skipGap (context : Context) (cursor : Cursor) : Cursor :=
  if context.joined then cursor else cursor.skipGap

/-- The names that did not match, and those that matched where they must not, at the furthest place
where there were any. -/
structure Attempts (Name : Type) where
  furthest : Nat
  expected : List Name
  unexpected : List Name
deriving DecidableEq

namespace Attempts

def empty : Attempts Name :=
  ⟨0, [], []⟩

/-- The attempts at one place, forgetting those before it. -/
def atPlace (attempts : Attempts Name) (offset : Nat) : Attempts Name :=
  if attempts.furthest = offset then attempts else ⟨offset, [], []⟩

def countAt (attempts : Attempts Name) (offset : Nat) : Nat :=
  (attempts.atPlace offset).expected.length + (attempts.atPlace offset).unexpected.length

/-- Notes the failure of a name at a place, where `before` is what was known when its trial began.
A trial that noted exactly one name there keeps it. Otherwise the new name takes the place of all
that the trial noted there. -/
def note (attempts before : Attempts Name) (name : Name) (offset : Nat) (purpose : Purpose) :
    Attempts Name :=
  if attempts.countAt offset = before.countAt offset + 1 then attempts
  else if attempts.furthest ≤ offset then
    let known := attempts.atPlace offset
    let expected := known.expected.take (before.atPlace offset).expected.length
    let unexpected := known.unexpected.take (before.atPlace offset).unexpected.length
    if purpose = .absent then ⟨offset, expected, unexpected ++ [name]⟩
    else ⟨offset, expected ++ [name], unexpected⟩
  else attempts

end Attempts

/-- Where a match ended, and the named parts it consists of. -/
structure Found (Name : Type) where
  cursor : Cursor
  nodes : List (Node Name)

abbrev Result (Name : Type) := Option (Found Name) × Attempts Name

/-- The text after an exact beginning, if it begins so. -/
def after? : (beginning text : List Char) → Option (List Char)
  | [], text => some text
  | _ :: _, [] => none
  | c :: beginning, d :: text => if c = d then after? beginning text else none

/-- Repeats a body after its first match. The first list bounds the repetitions, since each takes
at least one character. -/
def repeatBody (context : Context) (body : Cursor → Attempts Name → Result Name) :
    List Char → Cursor → List (Node Name) → Attempts Name → Result Name
  | [], cursor, nodes, attempts =>
      match body (context.skipGap cursor) attempts with
      | (none, attempts) => (some ⟨cursor, nodes.reverse⟩, attempts)
      | (some found, attempts) => (some ⟨found.cursor, nodes.reverse ++ found.nodes⟩, attempts)
  | _ :: bound, cursor, nodes, attempts =>
      match body (context.skipGap cursor) attempts with
      | (none, attempts) => (some ⟨cursor, nodes.reverse⟩, attempts)
      | (some found, attempts) =>
          repeatBody context body bound found.cursor (found.nodes.reverse ++ nodes) attempts

namespace Pattern

def run : Pattern Name → Context → Cursor → Attempts Name → Result Name
  | start, _, cursor, attempts =>
      (if cursor.offset = 0 then some ⟨cursor, []⟩ else none, attempts)
  | finish, _, cursor, attempts =>
      (if cursor.rest.isEmpty then some ⟨cursor, []⟩ else none, attempts)
  | any, _, cursor, attempts =>
      match cursor.rest with
      | [] => (none, attempts)
      | _ :: rest => (some ⟨cursor.advance 1 rest, []⟩, attempts)
  | oneOf allowed, _, cursor, attempts =>
      match cursor.rest with
      | [] => (none, attempts)
      | c :: rest => (if allowed c then some ⟨cursor.advance 1 rest, []⟩ else none, attempts)
  | exactly text, _, cursor, attempts =>
      ((after? text cursor.rest).map fun rest => ⟨cursor.advance text.length rest, []⟩, attempts)
  | seq first second, context, cursor, attempts =>
      match first.run context cursor attempts with
      | (none, attempts) => (none, attempts)
      | (some found, attempts) =>
          match second.run context (context.skipGap found.cursor) attempts with
          | (none, attempts) => (none, attempts)
          | (some last, attempts) => (some ⟨last.cursor, found.nodes ++ last.nodes⟩, attempts)
  | either first second, context, cursor, attempts =>
      match first.run context cursor attempts with
      | (none, attempts) => second.run context cursor attempts
      | (some found, attempts) => (some found, attempts)
  | optional body, context, cursor, attempts =>
      match body.run context cursor attempts with
      | (none, attempts) => (some ⟨cursor, []⟩, attempts)
      | (some found, attempts) => (some found, attempts)
  | many body, context, cursor, attempts =>
      match body.run context cursor attempts with
      | (none, attempts) => (some ⟨cursor, []⟩, attempts)
      | (some found, attempts) =>
          repeatBody context (body.run context) found.cursor.rest found.cursor
            found.nodes.reverse attempts
  | ahead body, context, cursor, attempts =>
      match body.run { context with purpose := context.purpose.ahead } cursor attempts with
      | (none, attempts) => (none, attempts)
      | (some _, attempts) => (some ⟨cursor, []⟩, attempts)
  | notAhead body, context, cursor, attempts =>
      match body.run { context with purpose := context.purpose.notAhead } cursor attempts with
      | (none, attempts) => (some ⟨cursor, []⟩, attempts)
      | (some _, attempts) => (none, attempts)
  | named name joined body, context, cursor, before =>
      match body.run { context with joined := context.joined || joined } cursor before with
      | (none, attempts) =>
          if context.joined || context.purpose = .absent then (none, attempts)
          else (none, attempts.note before name cursor.offset context.purpose)
      | (some found, attempts) =>
          let text := cursor.rest.take (found.cursor.offset - cursor.offset)
          let nodes :=
            if context.joined || context.purpose ≠ .consume then []
            else [Node.mk name cursor.offset text found.nodes]
          if !context.joined && context.purpose = .absent then
            (some ⟨found.cursor, nodes⟩, attempts.note before name cursor.offset context.purpose)
          else (some ⟨found.cursor, nodes⟩, attempts)

/-- Matches a text from its start. A failure gives the attempts at the furthest place. -/
def parse (pattern : Pattern Name) (text : List Char) : Except (Attempts Name) (List (Node Name)) :=
  match pattern.run ⟨.consume, false⟩ (.ofText text) .empty with
  | (none, attempts) => .error attempts
  | (some found, _) => .ok found.nodes

end Pattern

end TapeMachine.Grammar
