import TapeMachine.Proofs.Machine.Operation
import TapeMachine.Proofs.Source.TableReading
import TapeMachine.Proofs.Tape.View
import Mathlib.Tactic.ByContra

/-!
What every machine keeps to, whatever was done with it. The head stays next to the stored cells
since it writes before it moves. A rejected machine still has no rule for its situation, for nothing
moves when it rejects. An idle machine stands in the empty state, and rules name their states, so it
can take no step but the one that rejects.
-/

namespace TapeMachine.Machine

/-- The parts of a machine fit each other and its status. -/
structure Consistent (machine : Machine) : Prop where
  head_ge : -1 ≤ machine.tape.head
  head_le : machine.tape.head ≤ machine.tape.cells.size
  outcome : machine.outcome ≠ some .alreadyHalted
  idle : machine.status = .idle → machine.tape.cells = #[] ∧ machine.tape.head = 0 ∧
    machine.state = "" ∧ machine.steps = 0
  accepted : machine.status = .accepted →
    1 ≤ machine.steps ∧ machine.state ∈ machine.program.finals
  rejected : machine.status = .rejected →
    machine.program.table.find? machine.situation = none
  running : machine.status = .running → 1 ≤ machine.steps →
    machine.state ∉ machine.program.finals
  table : machine.program.table.NamesStates

/-- The head stands on a stored cell or next to one, or on the first cell of an empty tape. -/
theorem head_shift_write (tape : Tape) (symbol : Char) (direction : Direction) :
    -1 ≤ ((tape.write symbol).shift direction).head ∧
      ((tape.write symbol).shift direction).head ≤
        ((tape.write symbol).shift direction).cells.size := by
  have hge : 0 ≤ (tape.write symbol).head := by
    rw [tape.head_write]
    exact Int.le_max_right ..
  have hlt := tape.head_write_lt symbol
  cases direction with
  | left =>
      simp only [Tape.shift, Direction.offset]
      omega
  | right =>
      simp only [Tape.shift, Direction.offset]
      omega

theorem consistent_new : new.Consistent where
  head_ge := by decide
  head_le := by decide
  outcome := nofun
  idle _ := ⟨rfl, rfl, rfl, rfl⟩
  accepted := nofun
  rejected := nofun
  running := nofun
  table := Table.namesStates_empty

theorem consistent_setUp {definition : Definition} {table : Table}
    (htable : (Source.readTable definition.rules).table = .ok table) (machine : Machine) :
    (machine.setUp definition table).Consistent where
  head_ge := by
    show -1 ≤ (0 : Int)
    decide
  head_le := Int.natCast_nonneg _
  outcome := nofun
  idle := nofun
  accepted := nofun
  rejected := nofun
  running _ h := nomatch h
  table := Source.namesStates_readTable htable

namespace Consistent

variable {machine : Machine}

theorem reset (h : machine.Consistent) : machine.reset.Consistent where
  head_ge := by
    show -1 ≤ (0 : Int)
    decide
  head_le := Int.le_refl 0
  outcome := nofun
  idle _ := ⟨rfl, rfl, rfl, rfl⟩
  accepted := nofun
  rejected := nofun
  running := nofun
  table := h.table

/-- A machine that halted stays as it is but for its journal. -/
theorem record (h : machine.Consistent) (event : Event) : (machine.record event).Consistent where
  head_ge := h.head_ge
  head_le := h.head_le
  outcome := h.outcome
  idle := h.idle
  accepted := h.accepted
  rejected := h.rejected
  running := h.running
  table := h.table

theorem halt_rejected (h : machine.Consistent)
    (hnone : machine.program.table.find? machine.situation = none) :
    (machine.halt .rejected).Consistent where
  head_ge := h.head_ge
  head_le := h.head_le
  outcome := nofun
  idle := nofun
  accepted := nofun
  rejected _ := hnone
  running := nofun
  table := h.table

/-- A machine with a rule for its situation was loaded, for no rule is for the empty state. -/
theorem status_of_find? (h : machine.Consistent) (hrunning : machine.isHalted = false)
    {action : Action} (hsome : machine.program.table.find? machine.situation = some action) :
    machine.status = .running := by
  have houtcome : machine.outcome = none := by
    rwa [isHalted, Option.isSome_eq_false_iff, Option.isNone_iff_eq_none] at hrunning
  by_contra hstatus
  have hidle : machine.status = .idle := by
    simp only [status, houtcome] at hstatus ⊢
    split
    · next hloaded => exact absurd (if_pos hloaded) hstatus
    · rfl
  have hempty : machine.situation.state = "" := (h.idle hidle).2.2.1
  rw [h.table.find?_eq_none hempty] at hsome
  contradiction

theorem applyRule (h : machine.Consistent) (hrunning : machine.status = .running)
    (situation : Situation) {action : Action} (hfinal : action.next ∉ machine.program.finals) :
    (machine.applyRule situation action).Consistent where
  head_ge := (head_shift_write machine.tape action.write action.direction).1
  head_le := (head_shift_write machine.tape action.write action.direction).2
  outcome := h.outcome
  idle hidle := by
    have hstatus : machine.status = .idle := hidle
    rw [hrunning] at hstatus
    contradiction
  accepted haccepted := by
    have hstatus : machine.status = .accepted := haccepted
    rw [hrunning] at hstatus
    contradiction
  rejected hrejected := by
    have hstatus : machine.status = .rejected := hrejected
    rw [hrunning] at hstatus
    contradiction
  running _ _ := hfinal
  table := h.table

theorem applyRule_halt_accepted (h : machine.Consistent) (situation : Situation) {action : Action}
    (hfinal : action.next ∈ machine.program.finals) :
    ((machine.applyRule situation action).halt .accepted).Consistent where
  head_ge := (head_shift_write machine.tape action.write action.direction).1
  head_le := (head_shift_write machine.tape action.write action.direction).2
  outcome := nofun
  idle := nofun
  accepted _ := ⟨Nat.le_add_left 1 machine.steps, hfinal⟩
  rejected := nofun
  running := nofun
  table := h.table

theorem step (h : machine.Consistent) : machine.step.2.Consistent := by
  have hcase := machine.step_cases
  generalize machine.step = result at hcase ⊢
  cases hcase with
  | halted _ => exact h.record _
  | rejects _ hnone => exact (h.halt_rejected hnone).record _
  | accepts _ _ hfinal => exact (h.applyRule_halt_accepted _ hfinal).record _
  | moves hrunning hsome hfinal => exact h.applyRule (h.status_of_find? hrunning hsome) _ hfinal

end Consistent

/-- Whatever is done with a new machine, its parts fit each other and its status. -/
theorem consistent_performAll (operations : List Operation) :
    (new.performAll operations).Consistent := by
  refine performAll_induction ?_ ?_ ?_ consistent_new operations
  · intro machine h
    exact h.step
  · intro machine definition table htable _
    exact consistent_setUp htable machine
  · intro machine h
    exact h.reset

end TapeMachine.Machine
