import TapeMachine.Proofs.Tape.View
import Mathlib.Logic.Function.Basic

/-!
The strip that a tape stands for: a symbol at every distance from the head, in both directions. The
main statement says that writing and moving the head do on a tape what they do on its strip, wherever
the head is, and which cells a write stores for that: those between the stored block and the head.
-/

namespace TapeMachine

/-- The symbols of a row of cells without ends, by their distance from the head. -/
abbrev Strip := Int → Char

namespace Tape

inductive Operation where
  | write (symbol : Char)
  | shift (direction : Direction)

def perform (tape : Tape) : Operation → Tape
  | .write symbol => tape.write symbol
  | .shift direction => tape.shift direction

def performAll (tape : Tape) (operations : List Operation) : Tape :=
  operations.foldl perform tape

end Tape

namespace Strip

/-- The input from the head on, and blanks around it. -/
def ofInput (input : String) (blank : Char) : Strip := fun distance =>
  if 0 ≤ distance then input.toList.getD distance.toNat blank else blank

/-- What the head sees when it has moved is one cell further in its direction. -/
def perform (strip : Strip) : Tape.Operation → Strip
  | .write symbol => Function.update strip 0 symbol
  | .shift direction => fun distance => strip (distance + direction.offset)

def performAll (strip : Strip) (operations : List Tape.Operation) : Strip :=
  operations.foldl perform strip

end Strip

namespace Tape

section Storing

variable (tape : Tape) (symbol : Char)

/-- How many cells a head on the left is away from the first stored cell. -/
def missingLeft : Nat :=
  (-tape.head).toNat

/-- How many cells a head on the right is away from the last stored cell. -/
def missingRight : Nat :=
  (tape.head + 1 - tape.cells.size).toNat

theorem head_write_eq_add : (tape.write symbol).head = tape.head + tape.missingLeft := by
  rw [head_write, missingLeft]
  omega

/-- The stored cells, with blanks where cells are missing up to the head. -/
def paddedCells : List Char :=
  List.replicate tape.missingLeft tape.blank ++ tape.cells.toList ++
    List.replicate tape.missingRight tape.blank

theorem length_paddedCells :
    tape.paddedCells.length = tape.missingLeft + tape.cells.size + tape.missingRight := by
  rw [paddedCells, List.length_append, List.length_append, List.length_replicate,
    List.length_replicate, Array.length_toList]

theorem getElem?_paddedCells {place : Nat} (hplace : place < tape.cells.size) :
    tape.paddedCells[tape.missingLeft + place]? = some tape.cells[place] := by
  have hleft : (List.replicate tape.missingLeft tape.blank).length ≤ tape.missingLeft + place := by
    rw [List.length_replicate]
    omega
  rw [paddedCells, List.append_assoc, List.getElem?_append_right hleft, List.length_replicate,
    Nat.add_sub_cancel_left, List.getElem?_append_left hplace, Array.getElem?_toList,
    Array.getElem?_eq_getElem hplace]

theorem getElem?_paddedCells_of_missing {place : Nat} (hplace : place < tape.paddedCells.length)
    (hout : place < tape.missingLeft ∨ tape.missingLeft + tape.cells.size ≤ place) :
    tape.paddedCells[place]? = some tape.blank := by
  rw [length_paddedCells] at hplace
  rcases hout with hout | hout
  · rw [paddedCells, List.append_assoc, List.getElem?_append_left (by rwa [List.length_replicate]),
      List.getElem?_replicate_of_lt hout]
  · have hfront : (List.replicate tape.missingLeft tape.blank ++ tape.cells.toList).length =
        tape.missingLeft + tape.cells.size := by
      rw [List.length_append, List.length_replicate, Array.length_toList]
    rw [paddedCells, List.getElem?_append_right (hfront ▸ hout), hfront,
      List.getElem?_replicate_of_lt (by omega)]

/-- A write fills up with blanks on the head's side, and then puts the symbol on the head's cell. -/
theorem toList_write : (tape.write symbol).cells.toList =
    tape.paddedCells.set (tape.write symbol).head.toNat symbol := by
  obtain ⟨cells, head, blank⟩ := tape
  cases head with
  | ofNat place =>
      have hleft : missingLeft ⟨cells, .ofNat place, blank⟩ = 0 := by
        simp only [missingLeft, Int.ofNat_eq_natCast]
        omega
      have hhead : (write ⟨cells, .ofNat place, blank⟩ symbol).head.toNat = place := by
        rw [head_write]
        simp
      rw [paddedCells, hleft, hhead, List.replicate_zero, List.nil_append]
      by_cases hstored : place < cells.size
      · have hright : missingRight ⟨cells, .ofNat place, blank⟩ = 0 := by
          simp only [missingRight, Int.ofNat_eq_natCast]
          omega
        rw [hright, List.replicate_zero, List.append_nil]
        simp only [write, if_pos hstored, Array.toList_setIfInBounds]
      · have hright : missingRight ⟨cells, .ofNat place, blank⟩ = place - cells.size + 1 := by
          simp only [missingRight, Int.ofNat_eq_natCast]
          omega
        have hgap : (cells.toList ++ List.replicate (place - cells.size) blank).length = place := by
          rw [List.length_append, List.length_replicate, Array.length_toList]
          omega
        rw [hright, List.replicate_succ', ← List.append_assoc,
          List.set_append_right _ _ (Nat.le_of_eq hgap), hgap, Nat.sub_self]
        simp only [write, if_neg hstored, Array.toList_push, Array.toList_append,
          Array.toList_replicate, List.set_cons_zero]
  | negSucc gap =>
      have hleft : missingLeft ⟨cells, .negSucc gap, blank⟩ = gap + 1 := rfl
      have hright : missingRight ⟨cells, .negSucc gap, blank⟩ = 0 := by
        simp only [missingRight]
        omega
      rw [paddedCells, hleft, hright, List.replicate_succ]
      simp [write]

end Storing

/-- What a write does to the stored cells: it adds those that are missing up to the head, and
leaves all others in one piece. -/
structure StoresWrite (tape : Tape) (symbol : Char) (written : Tape) : Prop where
  head_nonneg : 0 ≤ written.head
  head_lt : written.head < written.cells.size
  head_eq : written.head = tape.head + tape.missingLeft
  size_eq : written.cells.size = tape.missingLeft + tape.cells.size + tape.missingRight
  at_head : written.cells[written.head.toNat]? = some symbol
  kept (place : Nat) (hplace : place < tape.cells.size) (hhead : (place : Int) ≠ tape.head) :
    written.cells[tape.missingLeft + place]? = some tape.cells[place]
  added (place : Nat) (hplace : place < written.cells.size) (hhead : (place : Int) ≠ written.head)
    (hout : place < tape.missingLeft ∨ tape.missingLeft + tape.cells.size ≤ place) :
    written.cells[place]? = some tape.blank

theorem storesWrite_write (tape : Tape) (symbol : Char) :
    tape.StoresWrite symbol (tape.write symbol) := by
  have hlist := tape.toList_write symbol
  have hlength := tape.length_paddedCells
  have hhead := tape.head_write_eq_add symbol
  have hlt := tape.head_write_lt symbol
  have hnonneg : 0 ≤ (tape.write symbol).head := by
    rw [head_write]
    omega
  have hsize : (tape.write symbol).cells.size = tape.paddedCells.length := by
    rw [← Array.length_toList, hlist, List.length_set]
  -- Away from the head's cell, what is stored is what the padded cells hold.
  have haway {place : Nat} (hne : (place : Int) ≠ (tape.write symbol).head) :
      (tape.write symbol).cells[place]? = tape.paddedCells[place]? := by
    rw [← Array.getElem?_toList, hlist, List.getElem?_set_ne (by omega)]
  refine ⟨hnonneg, hlt, hhead, hsize.trans hlength, ?_, fun place hplace hne => ?_,
    fun place hplace hne hout => ?_⟩
  · rw [← Array.getElem?_toList, hlist, List.getElem?_set_self (by omega)]
  · rw [haway (by omega), getElem?_paddedCells]
  · rw [haway hne, getElem?_paddedCells_of_missing tape (hsize ▸ hplace) hout]

/-! Operations. -/

theorem view_perform (tape : Tape) (operation : Operation) :
    (tape.perform operation).view = Strip.perform tape.view operation := by
  funext distance
  cases operation with
  | write symbol =>
      rw [perform, view_write, Strip.perform, Function.update_apply]
  | shift direction =>
      rw [perform, view_shift, Strip.perform, Int.add_comm]

theorem view_performAll (tape : Tape) (operations : List Operation) :
    (tape.performAll operations).view = Strip.performAll tape.view operations := by
  induction operations generalizing tape with
  | nil => rfl
  | cons operation operations ih =>
      rw [performAll, List.foldl_cons, ← performAll, ih, view_perform]
      rfl

theorem blank_perform (tape : Tape) (operation : Operation) :
    (tape.perform operation).blank = tape.blank := by
  cases operation with
  | write symbol => exact blank_write tape symbol
  | shift direction => rfl

theorem blank_performAll (tape : Tape) (operations : List Operation) :
    (tape.performAll operations).blank = tape.blank := by
  induction operations generalizing tape with
  | nil => rfl
  | cons operation operations ih => exact (ih _).trans (tape.blank_perform operation)

/-- Whatever is written on a fresh tape and wherever its head is moved, it shows what its strip
shows. Then moving the head shifts the view by one cell and stores nothing, and writing changes the
symbol under the head alone and stores the cells that are missing up to there, as blanks. -/
theorem performAll_refines_strip (input : String) (blank : Char) (operations : List Operation) :
    let tape := (ofInput input blank).performAll operations
    tape.view = (Strip.ofInput input blank).performAll operations ∧
    tape.blank = blank ∧
    (∀ direction, (tape.shift direction).view =
        (fun distance => tape.view (distance + direction.offset)) ∧
      (tape.shift direction).cells = tape.cells) ∧
    ∀ symbol, (tape.write symbol).view = Function.update tape.view 0 symbol ∧
      tape.StoresWrite symbol (tape.write symbol) := by
  intro tape
  have hstart : (ofInput input blank).view = Strip.ofInput input blank :=
    funext fun distance => view_ofInput input blank distance
  refine ⟨?_, blank_performAll _ operations, fun direction => ⟨?_, rfl⟩, fun symbol => ⟨?_, ?_⟩⟩
  · rw [← hstart]
    exact view_performAll _ operations
  · exact view_perform tape (.shift direction)
  · exact view_perform tape (.write symbol)
  · exact storesWrite_write tape symbol

end Tape

end TapeMachine
