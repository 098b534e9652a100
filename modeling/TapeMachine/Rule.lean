/-!
Transition rules. A rule pairs a situation, the state and the symbol under the head, with the
action that the machine takes in it.
-/

namespace TapeMachine

/-- The cell that the head enters next. Every action moves the head. -/
inductive Direction where
  | left
  | right
deriving DecidableEq

namespace Direction

def offset : Direction → Int
  | left => -1
  | right => 1

def text : Direction → String
  | left => "L"
  | right => "R"

end Direction

structure Situation where
  state : String
  symbol : Char
deriving DecidableEq

namespace Situation

/-- Situations are ordered by state and then by symbol. -/
instance : LT Situation :=
  ⟨fun a b => a.state < b.state ∨ a.state = b.state ∧ a.symbol < b.symbol⟩

theorem lt_iff {a b : Situation} :
    a < b ↔ a.state < b.state ∨ a.state = b.state ∧ a.symbol < b.symbol :=
  Iff.rfl

instance (a b : Situation) : Decidable (a < b) :=
  decidable_of_iff _ lt_iff.symm

theorem lt_irrefl (a : Situation) : ¬ a < a
  | .inl h => String.lt_irrefl _ h
  | .inr ⟨_, h⟩ => Char.lt_irrefl _ h

theorem lt_trans {a b c : Situation} (hab : a < b) (hbc : b < c) : a < c := by
  rw [lt_iff] at *
  rcases hab with hab | ⟨hab, hsymbol⟩ <;> rcases hbc with hbc | ⟨hbc, hsymbol'⟩
  · exact .inl (String.lt_trans hab hbc)
  · exact .inl (hbc ▸ hab)
  · exact .inl (hab ▸ hbc)
  · exact .inr ⟨hab.trans hbc, Char.lt_trans hsymbol hsymbol'⟩

theorem lt_of_not_lt {a b : Situation} (h : ¬ a < b) (hne : a ≠ b) : b < a := by
  rw [lt_iff, not_or, not_and] at h
  by_cases heq : a.state = b.state
  · refine .inr ⟨heq.symm, Std.lt_of_le_of_ne (Char.not_lt.1 (h.2 heq)) fun hsymbol => hne ?_⟩
    cases a; cases b; simp_all
  · exact .inl (Std.lt_of_le_of_ne (String.not_lt.1 h.1) (Ne.symm heq))

/-- Written as `(state, symbol)`. -/
def text (s : Situation) : String :=
  "(" ++ s.state ++ ", " ++ s.symbol.toString ++ ")"

end Situation

structure Action where
  next : String
  write : Char
  direction : Direction
deriving DecidableEq

/-- Written as `(next, write, direction)`. -/
def Action.text (a : Action) : String :=
  "(" ++ a.next ++ ", " ++ a.write.toString ++ ", " ++ a.direction.text ++ ")"

structure Rule where
  situation : Situation
  action : Action
deriving DecidableEq

end TapeMachine
