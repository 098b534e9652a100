import TapeMachine.Proofs.Tape.View

/-!
The tape as two words around the head, which looks one way along it. The word ahead begins with the
head's own cell and the word behind with the next cell the other way. Writing and moving on takes a
cell from the one word to the other, and turning around exchanges the two, also where the head
leaves the stored cells.
-/

namespace TapeMachine.Tape

/-- The tape that stores the cells of two words, the head looking in the direction. -/
def heading (blank : Char) (ahead behind : List Char) : Direction → Tape
  | .right => ⟨(behind.reverse ++ ahead).toArray, behind.length, blank⟩
  | .left => ⟨(ahead.reverse ++ behind).toArray, ahead.length - 1, blank⟩

section Heading

variable (blank : Char) (ahead behind : List Char)

theorem ofInput_eq_heading (input : String) :
    ofInput input blank = heading blank input.toList [] .right :=
  rfl

theorem read_heading (direction : Direction) :
    (heading blank ahead behind direction).read = ahead.head?.getD blank := by
  cases direction with
  | right =>
      change (heading blank ahead behind .right).readAt (behind.length : Nat) = _
      rw [readAt_natCast]
      simp [heading, List.getElem?_append_right, List.head?_eq_getElem?]
  | left =>
      cases ahead with
      | nil => rfl
      | cons symbol ahead =>
          have hhead : ((symbol :: ahead).length : Int) - 1 = (ahead.length : Nat) := by
            rw [List.length_cons]
            omega
          rw [read, heading, hhead, readAt_natCast]
          simp

theorem write_heading (symbol : Char) (direction : Direction) :
    (heading blank ahead behind direction).write symbol =
      heading blank (symbol :: ahead.tail) behind direction := by
  cases direction with
  | right =>
      cases ahead with
      | nil => simp [heading, write]
      | cons first ahead => simp [heading, write]
  | left =>
      cases ahead with
      | nil =>
          have hstart : heading blank [] behind .left = ⟨behind.toArray, .negSucc 0, blank⟩ := rfl
          rw [hstart]
          simp [heading, write]
      | cons first ahead => simp [heading, write]

theorem shift_heading (symbol : Char) (direction : Direction) :
    (heading blank (symbol :: ahead) behind direction).shift direction =
      heading blank ahead (symbol :: behind) direction := by
  cases direction with
  | right => simp [heading, shift, Direction.offset]
  | left => simp [heading, shift, Direction.offset]; omega

theorem shift_heading_of_ne (symbol : Char) {direction other : Direction} (h : other ≠ direction) :
    (heading blank (symbol :: ahead) behind direction).shift other =
      heading blank behind (symbol :: ahead) other := by
  cases direction with
  | right =>
      cases other with
      | right => exact absurd rfl h
      | left => simp [heading, shift, Direction.offset]; omega
  | left =>
      cases other with
      | left => exact absurd rfl h
      | right => simp [heading, shift, Direction.offset]

end Heading

end TapeMachine.Tape
