import TapeMachine.Proofs.Tape.View

/-!
The extent of a tape. Places are counted from anywhere outside the tape, so that they stay what they
are when cells are numbered anew: a tape whose head is at a place stores the cells from its first
place to its last. Writing and moving on extends these by the place that was written and no other.
-/

namespace TapeMachine

/-- The places that the head is at before each of the moves. -/
def visited (place : Int) : List Direction → List Int
  | [] => []
  | direction :: moves => place :: visited (place + direction.offset) moves

/-- The place that the moves lead to. -/
def placeAfter (place : Int) (moves : List Direction) : Int :=
  moves.foldl (fun reached direction => reached + direction.offset) place

theorem placeAfter_concat (place : Int) (moves : List Direction) (direction : Direction) :
    placeAfter place (moves ++ [direction]) = placeAfter place moves + direction.offset :=
  List.foldl_append

theorem visited_concat (place : Int) (moves : List Direction) (direction : Direction) :
    visited place (moves ++ [direction]) = visited place moves ++ [placeAfter place moves] := by
  induction moves generalizing place with
  | nil => rfl
  | cons first moves ih => exact congrArg (place :: ·) (ih _)

namespace Tape

variable (tape : Tape) (symbol : Char) (direction : Direction) (place : Int)

/-- The place of the first stored cell, the head being at the given place. -/
def firstPlace : Int :=
  place - tape.head

/-- The place of the last stored cell, or the one before the first if no cell is stored. -/
def lastPlace : Int :=
  place - tape.head + tape.cells.size - 1

/-- Writing stores the cells between the head and the stored ones, and the head's own. -/
theorem size_write : ((tape.write symbol).cells.size : Int) =
    max (tape.cells.size : Int) (tape.head + 1) + max (-tape.head) 0 := by
  obtain ⟨cells, head, blank⟩ := tape
  cases head with
  | ofNat head =>
      simp only [write, Int.ofNat_eq_natCast]
      split
      · rw [Array.size_setIfInBounds]
        omega
      · rw [Array.size_push, Array.size_append, Array.size_replicate]
        omega
  | negSucc gap =>
      simp only [write, Array.size_append, Array.size_replicate, List.size_toArray,
        List.length_singleton]
      omega

theorem firstPlace_move : ((tape.write symbol).shift direction).firstPlace
    (place + direction.offset) = min (tape.firstPlace place) place := by
  have hhead := tape.head_write symbol
  simp only [firstPlace, shift]
  omega

theorem lastPlace_move : ((tape.write symbol).shift direction).lastPlace
    (place + direction.offset) = max (tape.lastPlace place) place := by
  have hhead := tape.head_write symbol
  have hsize := tape.size_write symbol
  simp only [lastPlace, shift]
  omega

end Tape

end TapeMachine
