import TapeMachine.Tape

/-!
The tape as the head sees it. Writing left of the stored cells numbers all of them anew, so places
mean nothing across a write. Distances from the head do: writing changes the symbol at distance
zero alone, and moving the head shifts what it sees.
-/

namespace TapeMachine.Tape

/-- The symbol at a distance from the head. -/
def view (tape : Tape) (distance : Int) : Char :=
  tape.readAt (tape.head + distance)

theorem readAt_natCast (tape : Tape) (place : Nat) :
    tape.readAt place = tape.cells[place]?.getD tape.blank :=
  Array.getD_eq_getD_getElem?

theorem readAt_of_neg (tape : Tape) {place : Int} (h : place < 0) :
    tape.readAt place = tape.blank := by
  obtain ⟨gap, rfl⟩ := Int.eq_negSucc_of_lt_zero h
  rfl

theorem readAt_of_size_le (tape : Tape) {place : Int} (h : tape.cells.size ≤ place) :
    tape.readAt place = tape.blank := by
  obtain ⟨stored, rfl⟩ := Int.eq_ofNat_of_zero_le (Int.le_trans (Int.natCast_nonneg _) h)
  rw [readAt_natCast, Array.getElem?_eq_none (Int.ofNat_le.1 h), Option.getD_none]

theorem readAt_of_lt (tape : Tape) {place : Nat} (h : place < tape.cells.size) :
    tape.readAt place = tape.cells[place] := by
  rw [readAt_natCast, Array.getElem?_eq_getElem h, Option.getD_some]

theorem headStored_iff {tape : Tape} :
    tape.headStored = true ↔ 0 ≤ tape.head ∧ tape.head < tape.cells.size := by
  rw [headStored, Bool.and_eq_true, decide_eq_true_eq, decide_eq_true_eq]

/-- Outside the stored cells the head reads the blank. -/
theorem read_of_not_headStored {tape : Tape} (h : ¬ tape.headStored = true) :
    tape.read = tape.blank := by
  rw [headStored_iff] at h
  by_cases hleft : tape.head < 0
  · exact tape.readAt_of_neg hleft
  · exact tape.readAt_of_size_le (by omega)

@[simp] theorem blank_write (tape : Tape) (symbol : Char) :
    (tape.write symbol).blank = tape.blank := by
  unfold write
  split
  · split <;> rfl
  · rfl

theorem head_write (tape : Tape) (symbol : Char) : (tape.write symbol).head = max tape.head 0 := by
  obtain ⟨cells, head, blank⟩ := tape
  cases head with
  | ofNat place =>
      have hmax : max (Int.ofNat place) 0 = Int.ofNat place := Int.max_eq_left (Int.natCast_nonneg _)
      simp only [write]
      split
      · exact hmax.symm
      · exact hmax.symm
  | negSucc gap =>
      have hmax : max (Int.negSucc gap) 0 = 0 := by omega
      exact hmax.symm

/-- After writing, the head stands on a stored cell. -/
theorem head_write_lt (tape : Tape) (symbol : Char) :
    (tape.write symbol).head < (tape.write symbol).cells.size := by
  obtain ⟨cells, head, blank⟩ := tape
  cases head with
  | ofNat place =>
      simp only [write]
      split
      · next hstored =>
          rw [Array.size_setIfInBounds]
          exact Int.ofNat_lt.2 hstored
      · next hbeyond =>
          rw [Array.size_push, Array.size_append, Array.size_replicate]
          exact Int.ofNat_lt.2 (by omega)
  | negSucc gap =>
      simp only [write, Array.size_append, Array.size_replicate]
      exact Int.ofNat_lt.2 (by simp only [List.size_toArray, List.length_cons]; omega)

/-- On a cell that is not left of the block, writing changes that cell alone. -/
theorem readAt_write_of_nonneg {tape : Tape} (h : 0 ≤ tape.head) (symbol : Char) (place : Int) :
    (tape.write symbol).readAt place =
      if place = tape.head then symbol else tape.readAt place := by
  obtain ⟨cells, head, blank⟩ := tape
  obtain ⟨origin, rfl⟩ := Int.eq_ofNat_of_zero_le h
  by_cases hneg : place < 0
  · have hne : place ≠ (origin : Int) := by omega
    rw [readAt_of_neg _ hneg, readAt_of_neg _ hneg, if_neg hne, blank_write]
  · obtain ⟨target, rfl⟩ := Int.eq_ofNat_of_zero_le (Int.not_lt.1 hneg)
    rw [readAt_natCast, readAt_natCast]
    simp only [write, Int.ofNat_inj]
    split
    · grind
    · grind

/-- On a cell left of the block, writing numbers the cells anew, from the written one on. -/
theorem readAt_write_of_neg {tape : Tape} (h : tape.head < 0) (symbol : Char) (place : Int) :
    (tape.write symbol).readAt place =
      if place = 0 then symbol else tape.readAt (tape.head + place) := by
  obtain ⟨cells, head, blank⟩ := tape
  obtain ⟨gap, rfl⟩ := Int.eq_negSucc_of_lt_zero h
  by_cases hneg : place < 0
  · have hne : place ≠ 0 := by omega
    rw [readAt_of_neg _ hneg, readAt_of_neg _ (by dsimp only; omega), if_neg hne, blank_write]
  · obtain ⟨target, rfl⟩ := Int.eq_ofNat_of_zero_le (Int.not_lt.1 hneg)
    rw [readAt_natCast]
    simp only [write]
    by_cases hgap : Int.negSucc gap + target < 0
    · rw [readAt_of_neg _ hgap]
      grind
    · obtain ⟨source, hsource⟩ := Int.eq_ofNat_of_zero_le (Int.not_lt.1 hgap)
      have htarget : target = source + gap + 1 := by omega
      rw [hsource, readAt_natCast]
      subst htarget
      grind

/-- Writing changes what the head stands on and nothing else, wherever the head is. -/
theorem view_write (tape : Tape) (symbol : Char) (distance : Int) :
    (tape.write symbol).view distance = if distance = 0 then symbol else tape.view distance := by
  rw [view, view, head_write]
  by_cases h : 0 ≤ tape.head
  · have hzero : tape.head + distance = tape.head ↔ distance = 0 := by omega
    rw [Int.max_eq_left h, readAt_write_of_nonneg h]
    simp only [hzero]
  · have hneg := Int.not_le.1 h
    rw [Int.max_eq_right (Int.le_of_lt hneg), Int.zero_add, readAt_write_of_neg hneg]

theorem view_shift (tape : Tape) (direction : Direction) (distance : Int) :
    (tape.shift direction).view distance = tape.view (direction.offset + distance) := by
  rw [view, view, readAt_shift, shift, Int.add_assoc]

/-- A fresh tape shows the input from the head on, and blanks around it. -/
theorem view_ofInput (input : String) (blank : Char) (distance : Int) :
    (ofInput input blank).view distance =
      if 0 ≤ distance then input.toList.getD distance.toNat blank else blank := by
  rw [view, show (ofInput input blank).head = 0 from rfl, Int.zero_add]
  split
  · next hnonneg =>
      obtain ⟨place, rfl⟩ := Int.eq_ofNat_of_zero_le hnonneg
      rw [readAt_natCast, Int.toNat_natCast, List.getD_eq_getElem?_getD]
      simp only [ofInput, List.getElem?_toArray]
  · next hneg => exact readAt_of_neg _ (Int.not_le.1 hneg)

/-- The head begins on the first symbol of the input. -/
theorem read_ofInput {input : String} {symbol : Char} (h : input.toList.head? = some symbol)
    (blank : Char) : (ofInput input blank).read = symbol := by
  have hview := view_ofInput input blank 0
  rw [if_pos (Int.le_refl 0), Int.toNat_zero, List.getD_eq_getElem?_getD,
    ← List.head?_eq_getElem?, h] at hview
  exact hview

end TapeMachine.Tape
