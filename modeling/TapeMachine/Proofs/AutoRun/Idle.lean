import TapeMachine.Proofs.AutoRun.Keeping
import TapeMachine.Proofs.Machine.Textbook

/-!
Idle machines. A step does not ask whether its machine was loaded. But an idle machine is in the
empty state, and no rule that can be read is for that state, whatever was loaded before: all that a
step can do is to reject where the machine stands. The rejected machine is left as it is by further
steps, and a reset makes it idle again with the same program.
-/

namespace TapeMachine

namespace Machine

/-- What a machine holds until it is loaded: an empty tape, no state, and no record of an action. -/
structure IsUnstarted (program : Program) (blank : Char) (machine : Machine) : Prop where
  program_eq : machine.program = program
  tape_eq : machine.tape = .empty blank
  state_eq : machine.state = ""
  steps_eq : machine.steps = 0
  status : machine.status = .idle ∨ machine.status = .rejected
  unapplied : ∀ situation action, .applied situation action ∉ machine.journal.events

/-- A machine without a rule for its situation does nothing but reject, if it had not halted. -/
theorem step_of_find?_eq_none {machine : Machine}
    (hnone : machine.program.table.find? machine.situation = none) :
    machine.step = (.halts .alreadyHalted, machine.record .alreadyHalted) ∨
      machine.step =
        (.halts .rejected, (machine.halt .rejected).record (.noRule machine.situation)) := by
  cases hhalted : machine.isHalted with
  | true => exact .inl (step_of_isHalted hhalted)
  | false => exact .inr (StepCase.rejects hhalted hnone).eq_step.symm

/-! A step of a machine whose parts fit each other never leaves it idle. -/

theorem Consistent.status_step_ne_idle {machine : Machine} (h : machine.Consistent) :
    machine.step.2.status ≠ .idle := by
  intro hidle
  -- A step that does not halt the machine keeps its status, and then the machine was not idle.
  have hcase := machine.step_cases
  generalize machine.step = result at hcase hidle
  cases hcase with
  | halted hhalted =>
      have hstatus : machine.status = .idle := hidle
      rw [isHalted_eq_status, hstatus] at hhalted
      cases hhalted
  | rejects => cases hidle
  | accepts => cases hidle
  | @moves action hrunning hsome =>
      have hstatus : machine.status = .idle := hidle
      rw [h.status_of_find? hrunning hsome] at hstatus
      cases hstatus

/-- As long as it is idle, a machine has recorded nothing but a reset. -/
structure IdlesClear (machine : Machine) : Prop where
  consistent : machine.Consistent
  journal : machine.status = .idle → ∀ event ∈ machine.journal.events, event = .reset

theorem idlesClear_new : new.IdlesClear where
  consistent := consistent_new
  journal _ _ hmem := absurd hmem (Array.not_mem_empty _)

namespace IdlesClear

variable {machine : Machine} (h : machine.IdlesClear)

include h

theorem step : machine.step.2.IdlesClear where
  consistent := h.consistent.step
  journal hidle := absurd hidle h.consistent.status_step_ne_idle

theorem reset : machine.reset.IdlesClear where
  consistent := h.consistent.reset
  journal _ event hmem := by
    rcases Array.mem_push.1 hmem with hearlier | hlast
    · exact absurd hearlier (Array.not_mem_empty _)
    · exact hlast

theorem isUnstarted (hidle : machine.status = .idle) :
    machine.IsUnstarted machine.program machine.tape.blank := by
  obtain ⟨hcells, hhead, hstate, hsteps⟩ := h.consistent.idle hidle
  refine ⟨rfl, ?_, hstate, hsteps, .inl hidle, fun situation action hmem => ?_⟩
  · show machine.tape = ⟨#[], 0, machine.tape.blank⟩
    rw [← hcells, ← hhead]
  · cases h.journal hidle _ hmem

end IdlesClear

namespace IsUnstarted

variable {program : Program} {blank : Char} {machine : Machine}
  (h : machine.IsUnstarted program blank)

include h

theorem find?_eq_none (hnames : program.table.NamesStates) :
    machine.program.table.find? machine.situation = none := by
  rw [h.program_eq]
  exact hnames.find?_eq_none h.state_eq

theorem applied_step (hnames : program.table.NamesStates) :
    machine.step.1.applied = false := by
  rcases step_of_find?_eq_none (h.find?_eq_none hnames) with hstep | hstep
  · rw [hstep]
    rfl
  · rw [hstep]
    rfl

theorem record {event : Event} (hevent : ∀ situation action, event ≠ .applied situation action) :
    (machine.record event).IsUnstarted program blank := by
  refine ⟨h.program_eq, h.tape_eq, h.state_eq, h.steps_eq, h.status, ?_⟩
  intro situation action hmem
  rcases Array.mem_push.1 hmem with hearlier | hlast
  · exact h.unapplied situation action hearlier
  · exact hevent situation action hlast.symm

theorem step (hnames : program.table.NamesStates) : machine.step.2.IsUnstarted program blank := by
  rcases step_of_find?_eq_none (h.find?_eq_none hnames) with hstep | hstep
  · rw [hstep]
    exact h.record nofun
  · have hrejected : (machine.halt .rejected).IsUnstarted program blank :=
      ⟨h.program_eq, h.tape_eq, h.state_eq, h.steps_eq, .inr rfl, h.unapplied⟩
    rw [hstep]
    exact hrejected.record nofun

/-- What an advance applies is what the count of actions grows by, and the count stays zero. -/
theorem applied_advance (hnames : program.table.NamesStates) (run : AutoRun) (tokens : Tokens)
    (time : Nat) : (run.advance tokens machine time).applied = 0 := by
  have hadvanced : (run.advance tokens machine time).machine.IsUnstarted program blank := by
    apply AutoRun.advance_induction
    · intro later hlater
      exact hlater.step hnames
    · exact h
  have hsteps : (run.advance tokens machine time).machine.steps =
      machine.steps + (run.advance tokens machine time).applied :=
    (AutoRun.follows_advance run tokens machine time).steps
  rw [hadvanced.steps_eq, h.steps_eq] at hsteps
  omega

theorem reset : machine.reset.IsUnstarted program blank := by
  refine ⟨h.program_eq, ?_, rfl, rfl, .inl rfl, ?_⟩
  · show Tape.empty machine.tape.blank = .empty blank
    rw [h.tape_eq]
    rfl
  · intro situation action hmem
    rcases Array.mem_push.1 hmem with hearlier | hlast
    · exact Array.not_mem_empty _ hearlier
    · cases hlast

end IsUnstarted

theorem step_of_idle {machine : Machine} (h : machine.Consistent)
    (hidle : machine.status = .idle) :
    machine.step = (.halts .rejected,
      (machine.halt .rejected).record (.noRule machine.situation)) := by
  have hrunning : machine.isHalted = false := by rw [isHalted_eq_status, hidle, Status.isHalted]
  have hnone : machine.program.table.find? machine.situation = none :=
    h.table.find?_eq_none (h.idle hidle).2.2.1
  exact (StepCase.rejects hrunning hnone).eq_step.symm

end Machine

namespace AutoRun

/-- The first advance of a run whose machine halts at once makes this step and ends the run. -/
theorem advance_pending_of_halts {run : AutoRun} {tokens : Tokens} {machine : Machine}
    (hpending : run.phase = .pending) (h : tokens.isCancelled run.token = false)
    (hhalts : machine.step.1 ≠ .goesOn) (time : Nat) :
    run.advance tokens machine time =
      ⟨{ run with phase := .finished }, machine.step.2, machine.step.1.applied.toNat⟩ := by
  have hstarted : tokens.isCancelled
      (⟨{ run with phase := .active }, machine, 0⟩ : Progress).run.token = false := h
  obtain ⟨count, hadvance⟩ := advance_of_pending hpending tokens machine time
  rw [hadvance, Progress.fire_of_not_cancelled hstarted, if_neg hhalts,
    Progress.fireDue_of_not_active (by simp), Nat.zero_add]

end AutoRun

namespace Ensemble

open Machine

theorem idlesClear_makeAll (moves : List Move) : (new.makeAll moves).machine.IdlesClear := by
  apply makeAll_induction
  · intro machine h
    exact h.step
  · intro machine h
    exact h.reset
  · intro machine definition table _ htable _
    exact ⟨consistent_setUp htable machine, nofun⟩
  · exact idlesClear_new

/-- Until a load succeeds, a machine that has done nothing does nothing. -/
theorem isUnstarted_makeAll {ensemble : Ensemble} {program : Program} {blank : Char}
    (h : ensemble.machine.IsUnstarted program blank) (hnames : program.table.NamesStates)
    {moves : List Move}
    (hrefused : ∀ definition, .operate (.load definition) ∈ moves →
      ∃ line ∈ definition.rules, ∃ error, Source.readRule line.toList = .error error) :
    (ensemble.makeAll moves).machine.IsUnstarted program blank := by
  apply makeAll_induction
  · intro machine hmachine
    exact hmachine.step hnames
  · intro machine hmachine
    exact hmachine.reset
  · intro machine definition table hmem htable _
    -- Only a load that succeeds matters here, and none does.
    obtain ⟨line, hline, error, hread⟩ := hrefused definition hmem
    obtain ⟨refusal, hrefusal⟩ := Source.readTable_of_unreadable hline hread
    rw [htable] at hrefusal
    cases hrefusal
  · exact h

/-- The first step of an idle machine rejects it and does nothing else, whether it is made alone, by
a run or by an automatic run. Until a load succeeds, no moves apply an action: the tape, the state,
the count of actions and the program stay as they are. -/
theorem idle_makeAll (moves : List Move) (hidle : (new.makeAll moves).machine.status = .idle) :
    let ensemble := new.makeAll moves
    let machine := ensemble.machine
    machine.step = (.halts .rejected,
      (machine.halt .rejected).record (.noRule machine.situation)) ∧
    (∀ limit, machine.run (limit + 1) = machine.step) ∧
    (∀ (run : AutoRun) tokens time, run.phase = .pending →
      tokens.isCancelled run.token = false →
      run.advance tokens machine time = ⟨{ run with phase := .finished }, machine.step.2, 0⟩) ∧
    ∀ later : List Move,
      (∀ definition, .operate (.load definition) ∈ later →
        ∃ line ∈ definition.rules, ∃ error, Source.readRule line.toList = .error error) →
      let reached := (ensemble.makeAll later).machine
      reached.tape = machine.tape ∧ reached.state = machine.state ∧
      reached.steps = machine.steps ∧ reached.program = machine.program ∧
      (reached.status = .idle ∨ reached.status = .rejected) ∧
      (∀ situation action, .applied situation action ∉ reached.journal.events) ∧
      reached.step.1.applied = false ∧
      ∀ (run : AutoRun) tokens time, (run.advance tokens reached time).applied = 0 := by
  intro ensemble machine
  have hclear : machine.IdlesClear := idlesClear_makeAll moves
  have hnames := hclear.consistent.table
  have hunstarted := hclear.isUnstarted hidle
  have hstep := step_of_idle hclear.consistent hidle
  have hhalts : machine.step.1 ≠ .goesOn := by
    rw [hstep]
    nofun
  refine ⟨hstep, run_succ_of_halts hhalts, fun run tokens time hpending htoken => ?_,
    fun later hrefused => ?_⟩
  · rw [AutoRun.advance_pending_of_halts hpending htoken hhalts, hstep]
    rfl
  · intro reached
    have hreached : reached.IsUnstarted machine.program machine.tape.blank :=
      isUnstarted_makeAll hunstarted hnames hrefused
    refine ⟨hreached.tape_eq.trans hunstarted.tape_eq.symm,
      hreached.state_eq.trans hunstarted.state_eq.symm,
      hreached.steps_eq.trans hunstarted.steps_eq.symm, hreached.program_eq, hreached.status,
      hreached.unapplied, hreached.applied_step hnames, hreached.applied_advance hnames⟩

/-- A machine is loaded, run to its end and reset, with an automatic run waiting. -/
def loadedAndReset : List Move :=
  [.operate (.load outAndBack), .operate (.run 3), .issue none, .start 0 ⟨0, []⟩, .operate .reset]

/-- Time goes by for the waiting run, and the machine is stepped, reset and run again. A load between
these is refused. -/
def stepsWhileIdle : List Move :=
  [.advance 0 millisecond, .operate .step, .operate .reset,
    .operate (.load { outAndBack with rules := ["q,a -> q,ab,R"] }), .operate (.run 3)]

theorem idle_makeAll_loadedAndReset :
    let machine := (new.makeAll loadedAndReset).machine
    let reached := ((new.makeAll loadedAndReset).makeAll stepsWhileIdle).machine
    machine.status = .idle ∧ machine.program.table = outAndBackTable ∧
      (∀ definition, .operate (.load definition) ∈ stepsWhileIdle →
        ∃ line ∈ definition.rules, ∃ error, Source.readRule line.toList = .error error) ∧
      machine.step.1 = .halts .rejected ∧ reached.tape = machine.tape ∧ reached.steps = 0 ∧
      reached.program = machine.program := by
  intro machine reached
  have hidle : machine.status = .idle := by rfl
  have hrefused : ∀ definition, .operate (.load definition) ∈ stepsWhileIdle →
      ∃ line ∈ definition.rules, ∃ error, Source.readRule line.toList = .error error := by
    intro definition hmem
    have hdefinition : definition = { outAndBack with rules := ["q,a -> q,ab,R"] } := by
      simpa [stepsWhileIdle] using hmem
    rw [hdefinition]
    exact ⟨"q,a -> q,ab,R", List.mem_singleton_self _, _, rfl⟩
  obtain ⟨hstep, -, -, hlater⟩ := idle_makeAll loadedAndReset hidle
  obtain ⟨htape, -, hsteps, hprogram, -⟩ := hlater stepsWhileIdle hrefused
  exact ⟨hidle, rfl, hrefused, congrArg Prod.fst hstep, htape, hsteps, hprogram⟩

end Ensemble

end TapeMachine
