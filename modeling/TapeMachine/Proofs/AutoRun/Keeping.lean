import TapeMachine.Proofs.AutoRun.Sharing
import TapeMachine.Proofs.Machine.Consistent

/-!
What an advance of an automatic run leaves behind. Whatever a step keeps of the machine an advance
keeps too, and a run that is active after an advance has made its first step and left the machine
unhalted. So the parts of a machine fit each other also when automatic runs have stepped it.
-/

namespace TapeMachine

namespace Progress

section Induction

variable {Holds : Machine → Prop} (hstep : ∀ machine, Holds machine → Holds machine.step.2)

include hstep

theorem fire_induction {progress : Progress} (h : Holds progress.machine) (tokens : Tokens) :
    Holds (fire tokens progress).machine := by
  cases hcancelled : tokens.isCancelled progress.run.token with
  | true =>
      rw [fire_of_cancelled hcancelled]
      exact h
  | false =>
      rw [fire_of_not_cancelled hcancelled]
      exact hstep _ h

theorem fireDue_induction {progress : Progress} (h : Holds progress.machine) (tokens : Tokens)
    (count : Nat) : Holds (fireDue tokens count progress).machine := by
  induction count generalizing progress with
  | zero => exact h
  | succ count ih =>
      have hspent : Holds progress.spend.machine := h
      rw [fireDue_succ]
      split
      · exact ih (fire_induction hstep hspent tokens)
      · exact h

end Induction

/-- A run that is active has steps left to make on its machine. -/
def IsLive (progress : Progress) : Prop :=
  progress.run.phase = .active → progress.machine.isHalted = false

theorem isLive_fire (tokens : Tokens) (progress : Progress) : (fire tokens progress).IsLive := by
  intro hactive
  cases hcancelled : tokens.isCancelled progress.run.token with
  | true =>
      rw [fire_of_cancelled hcancelled] at hactive
      cases hactive
  | false =>
      rw [fire_of_not_cancelled hcancelled] at hactive ⊢
      rw [progress.machine.step_cases.isHalted_eq_false_iff]
      by_contra hhalts
      rw [if_neg hhalts] at hactive
      cases hactive

theorem IsLive.fireDue {progress : Progress} (h : progress.IsLive) (tokens : Tokens) (count : Nat) :
    (fireDue tokens count progress).IsLive := by
  induction count generalizing progress with
  | zero => exact h
  | succ count ih =>
      rw [fireDue_succ]
      split
      · exact ih (isLive_fire tokens _)
      · exact h

end Progress

namespace AutoRun

variable {run : AutoRun} {tokens : Tokens} {machine : Machine}

theorem advance_induction {Holds : Machine → Prop}
    (hstep : ∀ machine, Holds machine → Holds machine.step.2) (h : Holds machine)
    (run : AutoRun) (tokens : Tokens) (time : Nat) :
    Holds (run.advance tokens machine time).machine := by
  cases hphase : run.phase with
  | pending =>
      obtain ⟨count, hadvance⟩ := advance_of_pending hphase tokens machine time
      rw [hadvance]
      exact Progress.fireDue_induction hstep (Progress.fire_induction hstep h tokens) tokens count
  | active =>
      rw [advance_active hphase]
      exact Progress.fireDue_induction hstep h tokens _
  | finished | cancelled =>
      rw [advance_of_ended (by simp [hphase, Phase.rank])]
      exact h

theorem isLive_advance (hrunning : machine.isHalted = false) (run : AutoRun) (tokens : Tokens)
    (time : Nat) : (run.advance tokens machine time).IsLive := by
  cases hphase : run.phase with
  | pending =>
      obtain ⟨count, hadvance⟩ := advance_of_pending hphase tokens machine time
      rw [hadvance]
      exact (Progress.isLive_fire tokens _).fireDue tokens count
  | active =>
      have hstart : Progress.IsLive ⟨{ run with elapsed := run.elapsed + time }, machine, 0⟩ :=
        fun _ => hrunning
      rw [advance_active hphase]
      exact hstart.fireDue tokens _
  | finished | cancelled =>
      rw [advance_of_ended (by simp [hphase, Phase.rank])]
      exact fun _ => hrunning

/-- An advance leaves no run pending. -/
theorem active_rank_le_advance (run : AutoRun) (tokens : Tokens) (machine : Machine) (time : Nat) :
    Phase.active.rank ≤ (run.advance tokens machine time).run.phase.rank := by
  by_cases hpending : run.phase = .pending
  · obtain ⟨count, hadvance⟩ := advance_of_pending hpending tokens machine time
    rw [hadvance]
    exact ((Progress.wentOn_fire rfl).fireDue count).rank_le
  · have hrank : Phase.active.rank ≤ run.phase.rank := by
      cases hphase : run.phase with
      | pending => exact absurd hphase hpending
      | active | finished | cancelled => decide
    exact Nat.le_trans hrank (run.phase_advance tokens machine time).1

/-- A run that stays active stays so together with its machine. -/
theorem isHalted_advance_of_isActive (hrunning : machine.isHalted = false) {time : Nat}
    (hactive : (run.advance tokens machine time).run.isActive tokens = true) :
    (run.advance tokens machine time).machine.isHalted = false := by
  refine isLive_advance hrunning run tokens time ?_
  have hle := (isActive_eq_true_iff.1 hactive).1
  have hge := run.active_rank_le_advance tokens machine time
  cases hphase : (run.advance tokens machine time).run.phase with
  | active => rfl
  | pending | finished | cancelled => simp [hphase, Phase.rank] at hle hge

end AutoRun

/-! What the moves of an ensemble keep of its machine. -/

namespace Ensemble

/-- A new machine and no runs. -/
def new : Ensemble :=
  ⟨.new, .empty, []⟩

section Induction

variable {Holds : Machine → Prop} (hstep : ∀ machine, Holds machine → Holds machine.step.2)
  (hreset : ∀ machine, Holds machine → Holds machine.reset)

include hstep hreset

theorem make_induction {ensemble : Ensemble} {move : Move}
    (hload : ∀ definition table, move = .operate (.load definition) →
      (Source.readTable definition.rules).table = .ok table →
        Holds (ensemble.machine.setUp definition table))
    (h : Holds ensemble.machine) : Holds (ensemble.make move).machine := by
  cases move with
  | advance place time =>
      rw [make]
      cases ensemble.runs[place]? with
      | none => exact h
      | some run => exact AutoRun.advance_induction hstep h run ensemble.tokens time
  | cancelRun place =>
      rw [make]
      cases ensemble.runs[place]? with
      | none => exact h
      | some run => exact h
  | operate operation =>
      apply Machine.perform_induction hstep
      · rintro definition table rfl htable
        exact hload definition table rfl htable
      · intro _
        exact hreset _ h
      · exact h
  | cancelToken token => exact h
  | issue parent => exact h
  | start interval token => exact h

/-- What steps and resets keep, and the loads among the moves, is kept by all moves. -/
theorem makeAll_induction {moves : List Move}
    (hload : ∀ machine definition table, .operate (.load definition) ∈ moves →
      (Source.readTable definition.rules).table = .ok table → Holds machine →
        Holds (machine.setUp definition table))
    {ensemble : Ensemble} (h : Holds ensemble.machine) :
    Holds (ensemble.makeAll moves).machine := by
  induction moves generalizing ensemble with
  | nil => exact h
  | cons move moves ih =>
      apply ih
      · intro machine definition table hmem
        exact hload machine definition table (List.mem_cons_of_mem move hmem)
      · apply make_induction hstep hreset
        · rintro definition table rfl htable
          exact hload _ definition table List.mem_cons_self htable h
        · exact h

end Induction

/-- Whatever is done with a new machine, automatic runs included, its parts fit each other. -/
theorem consistent_makeAll (moves : List Move) : (new.makeAll moves).machine.Consistent := by
  apply makeAll_induction
  · intro machine h
    exact h.step
  · intro machine h
    exact h.reset
  · intro machine definition table _ htable _
    exact Machine.consistent_setUp htable machine
  · exact Machine.consistent_new

end Ensemble

end TapeMachine
