import TapeMachine.Proofs.AutoRun.Keeping
import TapeMachine.Proofs.Machine.Textbook

/-!
Windows. A machine's head is on a stored cell or next to one, so the head's own cell closes the gap
between the head and the stored cells, and a window is one row of consecutive places: from the
leftmost of those that it shows to the rightmost. What is said of windows is said of such rows.
-/

namespace TapeMachine

namespace Configuration

/-- A place of the tape as a window shows it. -/
def cellAt (tape : Tape) (place : Int) : Cell :=
  ⟨place, tape.readAt place, place = tape.head⟩

theorem cellAt_head (tape : Tape) : cellAt tape tape.head = ⟨tape.head, tape.read, true⟩ := by
  rw [cellAt, decide_eq_true rfl, Tape.read]

theorem cellAt_of_lt (tape : Tape) {place : Nat} (h : place < tape.cells.size) :
    cellAt tape place = ⟨place, tape.cells[place], decide (place = tape.head)⟩ := by
  rw [cellAt, tape.readAt_of_lt h]

section Row

variable (tape : Tape) (first middle last place : Int)

theorem cellsBetween_eq_map : cellsBetween tape first last =
    (List.range (last - first).toNat).map fun (k : Nat) => cellAt tape (first + k) :=
  rfl

theorem length_cellsBetween : (cellsBetween tape first last).length = (last - first).toNat := by
  rw [cellsBetween_eq_map, List.length_map, List.length_range]

theorem places_cellsBetween : (cellsBetween tape first last).map Cell.place =
    (List.range (cellsBetween tape first last).length).map fun (k : Nat) => first + k := by
  rw [length_cellsBetween, cellsBetween_eq_map, List.map_map]
  rfl

variable {tape first middle last place}

theorem mem_cellsBetween {cell : Cell} : cell ∈ cellsBetween tape first last ↔
    ∃ place, first ≤ place ∧ place < last ∧ cellAt tape place = cell := by
  rw [cellsBetween_eq_map, List.mem_map]
  constructor
  · rintro ⟨k, hk, hcell⟩
    rw [List.mem_range] at hk
    exact ⟨first + k, by omega, by omega, hcell⟩
  · rintro ⟨place, hfirst, hlast, hcell⟩
    refine ⟨(place - first).toNat, List.mem_range.2 (by omega), ?_⟩
    have hplace : first + ((place - first).toNat : Int) = place := by omega
    rw [hplace, hcell]

theorem cellsBetween_append (hfirst : first ≤ middle) (hlast : middle ≤ last) :
    cellsBetween tape first middle ++ cellsBetween tape middle last =
      cellsBetween tape first last := by
  have hcount : (last - first).toNat = (middle - first).toNat + (last - middle).toNat := by omega
  have hmiddle : first + ((middle - first).toNat : Int) = middle := by omega
  simp only [cellsBetween_eq_map]
  rw [hcount, List.range_add, List.map_append, List.map_map]
  congr 1
  apply List.map_congr_left
  intro k _
  rw [Function.comp_apply, Int.natCast_add, ← Int.add_assoc, hmiddle]

theorem cellsBetween_succ : cellsBetween tape place (place + 1) = [cellAt tape place] := by
  have hcount : (place + 1 - place).toNat = 1 := by omega
  rw [cellsBetween_eq_map, hcount]
  simp

/-- A row is a contiguous part of a longer one. -/
theorem cellsBetween_isInfix {outerFirst outerLast : Int} (hleft : outerFirst ≤ first)
    (hrow : first ≤ last) (hright : last ≤ outerLast) :
    cellsBetween tape first last <:+: cellsBetween tape outerFirst outerLast := by
  refine ⟨cellsBetween tape outerFirst first, cellsBetween tape last outerLast, ?_⟩
  rw [cellsBetween_append hleft hrow, cellsBetween_append (Int.le_trans hleft hrow) hright]

theorem filter_isHead_eq_nil (h : last ≤ tape.head ∨ tape.head < first) :
    (cellsBetween tape first last).filter Cell.isHead = [] := by
  rw [List.filter_eq_nil_iff]
  intro cell hcell hhead
  obtain ⟨place, hfirst, hlast, rfl⟩ := mem_cellsBetween.1 hcell
  have hplace : place = tape.head := of_decide_eq_true hhead
  omega

theorem filter_isHead_cellsBetween (hfirst : first ≤ tape.head) (hlast : tape.head < last) :
    (cellsBetween tape first last).filter Cell.isHead = [⟨tape.head, tape.read, true⟩] := by
  rw [← cellsBetween_append hfirst (Int.le_of_lt hlast),
    ← cellsBetween_append (Int.le_add_of_nonneg_right Int.one_nonneg) hlast, cellsBetween_succ,
    List.filter_append, List.filter_append, filter_isHead_eq_nil (.inl (Int.le_refl _)),
    filter_isHead_eq_nil (.inr (Int.lt_succ _)), cellAt_head]
  rfl

end Row

/-! The row of a window. -/

theorem signedRadius_of_lt {radius : Nat} (h : radius < 2 ^ 63) : signedRadius radius = radius := by
  show Int.bmod (radius : Int) 0x10000000000000000 = radius
  exact Int.bmod_eq_of_le (by omega) (by omega)

/-- The first place of a window. -/
def windowFirst (tape : Tape) (radius : Nat) : Int :=
  min tape.head (max (tape.head - radius) 0)

/-- The place after the last one of a window. -/
def windowEnd (tape : Tape) (radius : Nat) : Int :=
  max (tape.head + 1) (min (tape.head + radius + 1) tape.cells.size)

section Window

variable {config : Configuration} (hge : -1 ≤ config.tape.head)
  (hle : config.tape.head ≤ config.tape.cells.size) {radius : Nat} (hradius : radius < 2 ^ 63)

include hge hle hradius

/-- The head's own cell, where it is added, stands next to the others. -/
theorem window_eq : config.window radius =
    cellsBetween config.tape (windowFirst config.tape radius) (windowEnd config.tape radius) := by
  simp only [window, signedRadius_of_lt hradius, windowFirst, windowEnd]
  -- A head that is not stored is at -1 or right after the last cell, so no place is left out.
  by_cases hstored : config.tape.headStored = true
  · obtain ⟨hfirst, hlast⟩ := Tape.headStored_iff.1 hstored
    rw [if_pos hstored]
    congr 1
    · omega
    · omega
  · have hread := Tape.read_of_not_headStored hstored
    rw [if_neg hstored, ← hread, ← cellAt_head]
    rw [Tape.headStored_iff] at hstored
    by_cases hleft : config.tape.head < 0
    · have hfirst : max (config.tape.head - radius) 0 = config.tape.head + 1 := by omega
      rw [if_pos hleft, hfirst, ← List.singleton_append, ← cellsBetween_succ,
        cellsBetween_append (by omega) (by omega)]
      congr 1
      · omega
      · omega
    · have hlast : min (config.tape.head + radius + 1) config.tape.cells.size =
          config.tape.head := by
        omega
      rw [if_neg hleft, hlast, ← cellsBetween_succ, cellsBetween_append (by omega) (by omega)]
      congr 1
      · omega
      · omega

/-- A window shows the stored cells within the radius, and the head's own cell. -/
theorem mem_window {cell : Cell} : cell ∈ config.window radius ↔
    (∃ (place : Nat) (hplace : place < config.tape.cells.size),
      (place - config.tape.head).natAbs ≤ radius ∧
        ⟨place, config.tape.cells[place], decide (place = config.tape.head)⟩ = cell) ∨
    config.tape.headStored = false ∧ ⟨config.tape.head, config.tape.blank, true⟩ = cell := by
  rw [window_eq hge hle hradius, mem_cellsBetween, windowFirst, windowEnd]
  constructor
  · rintro ⟨place, hfirst, hlast, rfl⟩
    by_cases hplace : 0 ≤ place ∧ place < config.tape.cells.size
    · obtain ⟨stored, rfl⟩ := Int.eq_ofNat_of_zero_le hplace.1
      have hstored : stored < config.tape.cells.size := Int.ofNat_lt.1 hplace.2
      exact .inl ⟨stored, hstored, by omega, (cellAt_of_lt config.tape hstored).symm⟩
    · have hhead : place = config.tape.head := by omega
      rw [hhead, ← Tape.headStored_iff] at hplace
      refine .inr ⟨Bool.eq_false_iff.2 hplace, ?_⟩
      rw [hhead, cellAt_head, Tape.read_of_not_headStored hplace]
  · rintro (⟨place, hplace, hnear, rfl⟩ | ⟨hstored, rfl⟩)
    · exact ⟨place, by omega, by omega, cellAt_of_lt config.tape hplace⟩
    · refine ⟨config.tape.head, by omega, by omega, ?_⟩
      rw [cellAt_head, Tape.read_of_not_headStored (Bool.eq_false_iff.1 hstored)]

theorem length_window_le : (config.window radius).length ≤ 2 * radius + 1 := by
  rw [window_eq hge hle hradius, length_cellsBetween, windowFirst, windowEnd]
  omega

theorem window_isInfix {greater : Nat} (h : radius ≤ greater) (hgreater : greater < 2 ^ 63) :
    config.window radius <:+: config.window greater := by
  rw [window_eq hge hle hradius, window_eq hge hle hgreater]
  apply cellsBetween_isInfix
  · simp only [windowFirst]
    omega
  · simp only [windowFirst, windowEnd]
    omega
  · simp only [windowEnd]
    omega

theorem filter_isHead_window : (config.window radius).filter Cell.isHead =
    [⟨config.tape.head, config.tape.read, true⟩] := by
  rw [window_eq hge hle hradius]
  apply filter_isHead_cellsBetween
  · exact Int.min_le_left ..
  · exact Int.lt_of_lt_of_le (Int.lt_succ _) (Int.le_max_left ..)

theorem places_window : ∃ first : Int, (config.window radius).map Cell.place =
    (List.range (config.window radius).length).map fun (k : Nat) => first + k := by
  rw [window_eq hge hle hradius]
  exact ⟨_, places_cellsBetween ..⟩

end Window

end Configuration

namespace Ensemble

end Ensemble

end TapeMachine
