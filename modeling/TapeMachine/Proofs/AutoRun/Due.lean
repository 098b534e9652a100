import TapeMachine.Proofs.AutoRun.Keeping
import Mathlib.Order.Monotone.Basic

/-!
When the steps of an automatic run are due. The time that a run has counted since its last step is
less than its interval, whatever was done with it before, so the wait until the next step is never
zero once the first one is made. The loop that catches up with the time needs no bound of its own:
every turn uses up an interval, and no interval is empty.
-/

namespace TapeMachine

/-- The journal tells how many steps were made. -/
theorem Machine.stepTimes_injective (machine : Machine) :
    Function.Injective fun count => (machine.stepTimes count).2 := by
  have hgrows : StrictMono fun count => (machine.stepTimes count).2.journal.size :=
    strictMono_nat_of_lt_succ fun count => (step_cases _).size_journal_lt
  intro count other heq
  exact hgrows.injective (congrArg (·.journal.size) heq)

namespace Progress

def IsDue (progress : Progress) : Prop :=
  progress.run.phase = .active ∧ progress.run.interval ≤ progress.run.elapsed

/-- The loop that makes the steps that are due, by the number of its turns. It ends where no step is
due any more, and nothing else bounds it. -/
inductive CatchesUp (tokens : Tokens) : Nat → Progress → Progress → Prop where
  | stop {progress : Progress} (hnot : ¬ progress.IsDue) : CatchesUp tokens 0 progress progress
  | turn {turns : Nat} {progress last : Progress} (hdue : progress.IsDue)
      (hrest : CatchesUp tokens turns (fire tokens progress.spend) last) :
      CatchesUp tokens (turns + 1) progress last

variable {tokens : Tokens} {turns : Nat} {before after : Progress}

/-- The bound on the turns of an advance is one that its loop does not reach. -/
theorem catchesUp_fireDue {count : Nat}
    (h : before.run.elapsed < (count + 1) * before.run.interval) :
    ∃ turns, CatchesUp tokens turns before (fireDue tokens count before) := by
  induction count generalizing before with
  | zero =>
      rw [Nat.zero_add, Nat.one_mul] at h
      exact ⟨0, .stop fun hdue => Nat.not_le.2 h hdue.2⟩
  | succ count ih =>
      rw [fireDue_succ]
      split
      · next hdue =>
          -- A turn uses up an interval, so what is left of the time fits the smaller count.
          have hspent : (fire tokens before.spend).run.elapsed <
              (count + 1) * (fire tokens before.spend).run.interval := by
            rw [elapsed_fire, (follows_fire tokens before.spend).interval]
            show before.run.elapsed - before.run.interval < (count + 1) * before.run.interval
            have hle : before.run.interval ≤ before.run.elapsed := hdue.2
            rw [Nat.succ_mul] at h
            omega
          obtain ⟨turns, hrest⟩ := ih hspent
          exact ⟨turns + 1, .turn hdue hrest⟩
      · next hnot => exact ⟨0, .stop hnot⟩

namespace CatchesUp

theorem not_isDue (h : CatchesUp tokens turns before after) : ¬ after.IsDue := by
  induction h with
  | stop hnot => exact hnot
  | turn _ _ ih => exact ih

/-- Every turn makes one step, unless the run is cancelled. -/
theorem machine_eq (h : CatchesUp tokens turns before after)
    (hlive : tokens.isCancelled before.run.token = false) :
    after.machine = (before.machine.stepTimes turns).2 := by
  induction h with
  | stop => rfl
  | @turn turns progress last hdue hrest ih =>
      have hspent : tokens.isCancelled progress.spend.run.token = false := hlive
      have htoken : tokens.isCancelled (fire tokens progress.spend).run.token = false := by
        rw [(follows_fire tokens progress.spend).token]
        exact hspent
      rw [ih htoken, fire_of_not_cancelled hspent, Machine.stepTimes_succ]
      rfl

theorem eq_zero_iff (h : CatchesUp tokens turns before after) : turns = 0 ↔ ¬ before.IsDue := by
  cases h with
  | stop hnot => exact iff_of_true rfl hnot
  | turn hdue => exact iff_of_false (Nat.succ_ne_zero _) (not_not_intro hdue)

/-- A step that becomes due at the very moment of an advance is the only one. -/
theorem eq_one (h : CatchesUp tokens turns before after) (hactive : before.run.phase = .active)
    (htime : before.run.elapsed = before.run.interval) : turns = 1 := by
  cases h with
  | stop hnot => exact absurd ⟨hactive, Nat.le_of_eq htime.symm⟩ hnot
  | @turn turns _ _ hdue hrest =>
      have hnot : ¬ (fire tokens before.spend).IsDue := by
        rintro ⟨-, hle⟩
        have hpos := (fire tokens before.spend).run.interval_pos
        rw [elapsed_fire] at hle
        have hspent : before.spend.run.elapsed = 0 := by
          show before.run.elapsed - before.run.interval = 0
          omega
        omega
      rw [hrest.eq_zero_iff.2 hnot]

end CatchesUp

end Progress

namespace AutoRun

open Progress

/-- The runs there can be: new ones, with any interval and token, and what is left of them after they
were cancelled or advanced, each time on any machine. -/
inductive Reached : AutoRun → Prop where
  | new (interval : Nat) (token : Token) : Reached (.new interval token)
  | advance {run : AutoRun} (h : Reached run) (tokens : Tokens) (machine : Machine) (time : Nat) :
      Reached (run.advance tokens machine time).run
  | cancel {run : AutoRun} (h : Reached run) (tokens : Tokens) : Reached (run.cancel tokens).1

/-- No time is counted before the first step, and less than an interval after it. -/
structure OnTime (run : AutoRun) : Prop where
  pending : run.phase = .pending → run.elapsed = 0
  active : run.phase = .active → run.elapsed < run.interval

variable {run : AutoRun} {tokens : Tokens}

/-- An advance that was told of some time by an active run is the loop without a bound. -/
theorem catchesUp_advance (hactive : run.phase = .active) (tokens : Tokens) (machine : Machine)
    (time : Nat) :
    ∃ turns, CatchesUp tokens turns ⟨{ run with elapsed := run.elapsed + time }, machine, 0⟩
      (run.advance tokens machine time) := by
  rw [advance_active hactive]
  exact catchesUp_fireDue ((Nat.div_lt_iff_lt_mul run.interval_pos).1 (Nat.lt_succ_self _))

/-- After the first step no other one is due, since no time was counted before it. -/
theorem OnTime.not_isDue_fire (h : run.OnTime) (hpending : run.phase = .pending) (tokens : Tokens)
    (machine : Machine) : ¬ (fire tokens ⟨{ run with phase := .active }, machine, 0⟩).IsDue := by
  rintro ⟨-, hle⟩
  rw [elapsed_fire, h.pending hpending] at hle
  exact absurd hle (Nat.not_le.2 (interval_pos _))

theorem OnTime.advance (h : run.OnTime) (tokens : Tokens) (machine : Machine) (time : Nat) :
    (run.advance tokens machine time).run.OnTime := by
  refine ⟨fun hpending => ?_, fun hactive => ?_⟩
  · have hrank := run.active_rank_le_advance tokens machine time
    rw [hpending] at hrank
    exact absurd hrank (by decide)
  · cases hphase : run.phase with
    | pending =>
        rw [advance_pending hphase (h.pending hphase)] at hactive ⊢
        exact Nat.not_le.1 fun hle => h.not_isDue_fire hphase tokens machine ⟨hactive, hle⟩
    | active =>
        obtain ⟨turns, hloop⟩ := catchesUp_advance hphase tokens machine time
        exact Nat.not_le.1 fun hle => hloop.not_isDue ⟨hactive, hle⟩
    | finished | cancelled =>
        rw [advance_of_ended (by simp [hphase, Phase.rank]), hphase] at hactive
        cases hactive

theorem Reached.onTime (h : Reached run) : run.OnTime := by
  induction h with
  | new interval token => exact ⟨fun _ => rfl, nofun⟩
  | advance _ tokens machine time ih => exact ih.advance tokens machine time
  | cancel _ tokens ih => exact ⟨nofun, nofun⟩

theorem OnTime.nextDue_pos (h : run.OnTime) (hactive : run.phase = .active) : 0 < run.nextDue := by
  have hlt := h.active hactive
  rw [nextDue, hactive, if_neg nofun]
  omega

/-- An advance of a run that has not ended, its loop without a bound, by the number of its steps. -/
inductive Advances (run : AutoRun) (tokens : Tokens) (machine : Machine) (time : Nat) :
    Nat → Progress → Prop where
  | pending {turns : Nat} {last : Progress} (hpending : run.phase = .pending)
      (hloop : CatchesUp tokens turns
        (fire tokens ⟨{ run with phase := .active }, machine, 0⟩) last) :
      Advances run tokens machine time (turns + 1) last
  | active {turns : Nat} {last : Progress} (hactive : run.phase = .active)
      (hloop : CatchesUp tokens turns
        ⟨{ run with elapsed := run.elapsed + time }, machine, 0⟩ last) :
      Advances run tokens machine time turns last

/-- The first advance ends after one step, since no time is counted yet. -/
theorem OnTime.advances_pending (h : run.OnTime) (hpending : run.phase = .pending)
    (tokens : Tokens) (machine : Machine) (time : Nat) :
    run.Advances tokens machine time 1 (run.advance tokens machine time) := by
  refine .pending hpending ?_
  rw [advance_pending hpending (h.pending hpending)]
  exact .stop (h.not_isDue_fire hpending tokens machine)

theorem OnTime.exists_advances (h : run.OnTime) (hactive : run.isActive tokens = true)
    (machine : Machine) (time : Nat) :
    ∃ steps, run.Advances tokens machine time steps (run.advance tokens machine time) := by
  cases hphase : run.phase with
  | pending => exact ⟨1, h.advances_pending hphase tokens machine time⟩
  | active =>
      obtain ⟨turns, hloop⟩ := catchesUp_advance hphase tokens machine time
      exact ⟨turns, .active hphase hloop⟩
  | finished | cancelled =>
      have hrank := (isActive_eq_true_iff.1 hactive).1
      rw [hphase] at hrank
      exact absurd hrank (by decide)

namespace Advances

variable {machine : Machine} {time steps : Nat} {last : Progress}
  (h : run.Advances tokens machine time steps last)

include h

theorem machine_eq (hlive : tokens.isCancelled run.token = false) :
    last.machine = (machine.stepTimes steps).2 := by
  cases h with
  | @pending turns _ _ hloop =>
      have hstart : tokens.isCancelled
          (⟨{ run with phase := .active }, machine, 0⟩ : Progress).run.token = false := hlive
      have hfired : tokens.isCancelled
          (fire tokens ⟨{ run with phase := .active }, machine, 0⟩).run.token = false := by
        rw [(follows_fire tokens _).token]
        exact hstart
      rw [hloop.machine_eq hfired, fire_of_not_cancelled hstart, Machine.stepTimes_succ]
  | active _ hloop => exact hloop.machine_eq hlive

theorem steps_of_pending (hontime : run.OnTime) (hpending : run.phase = .pending) : steps = 1 := by
  cases h with
  | @pending turns _ _ hloop =>
      rw [hloop.eq_zero_iff.2 (hontime.not_isDue_fire hpending tokens machine)]
  | active hactive =>
      rw [hpending] at hactive
      cases hactive

theorem steps_of_active (hontime : run.OnTime) (hactive : run.phase = .active) :
    (steps = 0 ↔ time < run.nextDue) ∧ (time = run.nextDue → steps = 1) := by
  have hlt := hontime.active hactive
  have hnext : run.nextDue = run.interval - run.elapsed := by rw [nextDue, hactive, if_neg nofun]
  cases h with
  | pending hpending =>
      rw [hactive] at hpending
      cases hpending
  | active _ hloop =>
      rw [hnext]
      refine ⟨?_, fun htime => hloop.eq_one hactive ?_⟩
      · rw [hloop.eq_zero_iff, IsDue, and_iff_right hactive, Nat.not_le]
        show run.elapsed + time < run.interval ↔ _
        omega
      · show run.elapsed + time = run.interval
        omega

end Advances

/-! Waiting for each step. -/

/-- Makes so many advances, each after just the wait until the next step. -/
def advanceOnTime (run : AutoRun) (tokens : Tokens) (machine : Machine) : Nat → Progress
  | 0 => ⟨run, machine, 0⟩
  | count + 1 =>
      let progress := run.advanceOnTime tokens machine count
      progress.run.advance tokens progress.machine progress.run.nextDue

theorem OnTime.advanceOnTime (h : run.OnTime) (tokens : Tokens) (machine : Machine) (count : Nat) :
    (run.advanceOnTime tokens machine count).run.OnTime := by
  induction count with
  | zero => exact h
  | succ count ih => exact ih.advance tokens _ _

/-- A run that is active after an advance was so before. -/
theorem isActive_of_advance {machine : Machine} {time : Nat}
    (h : (run.advance tokens machine time).run.isActive tokens = true) :
    run.isActive tokens = true := by
  have hrank := (run.phase_advance tokens machine time).1
  have htoken := (run.follows_advance tokens machine time).token
  rw [isActive_eq_true_iff] at h ⊢
  rw [htoken] at h
  exact ⟨Nat.le_trans hrank h.1, h.2⟩

/-- After the wait for the next step an advance makes this step alone. -/
theorem OnTime.machine_advance_nextDue (h : run.OnTime) (hactive : run.isActive tokens = true)
    (machine : Machine) : (run.advance tokens machine run.nextDue).machine = machine.step.2 := by
  obtain ⟨hrank, hlive⟩ := isActive_eq_true_iff.1 hactive
  obtain ⟨steps, hadvances⟩ := h.exists_advances hactive machine run.nextDue
  have hone : steps = 1 := by
    cases hphase : run.phase with
    | pending => exact hadvances.steps_of_pending h hphase
    | active => exact (hadvances.steps_of_active h hphase).2 rfl
    | finished | cancelled => simp [hphase, Phase.rank] at hrank
  rw [hadvances.machine_eq hlive, hone]
  rfl

theorem OnTime.machine_advanceOnTime (h : run.OnTime) (machine : Machine) {count : Nat}
    (hactive : (run.advanceOnTime tokens machine count).run.isActive tokens = true) :
    (run.advanceOnTime tokens machine (count + 1)).machine = (machine.stepTimes (count + 1)).2 := by
  induction count with
  | zero => exact h.machine_advance_nextDue hactive machine
  | succ count ih =>
      calc (run.advanceOnTime tokens machine (count + 1 + 1)).machine
          = (run.advanceOnTime tokens machine (count + 1)).machine.step.2 :=
            (h.advanceOnTime tokens machine (count + 1)).machine_advance_nextDue hactive _
        _ = (machine.stepTimes (count + 1)).2.step.2 := by rw [ih (isActive_of_advance hactive)]

/-- A run that is active, whatever was done with it before, waits for its next step no longer than
its interval, and without its first step not at all. Its advances end although nothing but the time
bounds their loop: the first makes one step, a later one makes none before the wait is over, some
from then on, and one just when it is over. So advances that wait for each step make one each. -/
theorem advance_of_reached (h : Reached run) (hactive : run.isActive tokens = true)
    (machine : Machine) :
    (run.phase = .pending → run.nextDue = 0) ∧
    (run.phase = .active → 0 < run.nextDue ∧ run.nextDue ≤ run.interval) ∧
    (∀ time, ∃ steps,
      run.Advances tokens machine time steps (run.advance tokens machine time) ∧
      (run.advance tokens machine time).machine = (machine.stepTimes steps).2 ∧
      (∀ other, (machine.stepTimes other).2 = (machine.stepTimes steps).2 → other = steps) ∧
      (run.phase = .pending → steps = 1) ∧
      (run.phase = .active →
        (steps = 0 ↔ time < run.nextDue) ∧ (time = run.nextDue → steps = 1))) ∧
    ∀ count, (run.advanceOnTime tokens machine count).run.isActive tokens = true →
      (run.advanceOnTime tokens machine (count + 1)).machine =
        (machine.stepTimes (count + 1)).2 := by
  have hontime := h.onTime
  refine ⟨fun hpending => ?_, fun hphase => ⟨hontime.nextDue_pos hphase, ?_⟩, fun time => ?_,
    fun count => hontime.machine_advanceOnTime machine⟩
  · rw [nextDue, if_pos hpending]
  · rw [nextDue, hphase, if_neg nofun]
    exact Nat.sub_le ..
  · obtain ⟨steps, hadvances⟩ := hontime.exists_advances hactive machine time
    exact ⟨steps, hadvances, hadvances.machine_eq (isActive_eq_true_iff.1 hactive).2,
      fun other heq => machine.stepTimes_injective heq, hadvances.steps_of_pending hontime,
      hadvances.steps_of_active hontime⟩

/-- A run that was given no interval has made its first step and waits a millisecond for the next. -/
theorem advance_of_reached_walker :
    let token : Token := ⟨0, []⟩
    let run := ((new 0 token).advance .empty walker 700000).run
    Reached run ∧ run.isActive .empty = true ∧ run.phase = .active ∧
      0 < run.nextDue ∧ run.nextDue = millisecond ∧
      ∃ steps, (run.advance .empty walker millisecond).machine = (walker.stepTimes steps).2 ∧
        steps = 1 := by
  intro token run
  have hreached : Reached run := .advance (.new 0 token) .empty walker 700000
  have hrun : run = ⟨millisecond, 0, .active, token, Nat.le_refl _⟩ := by decide
  have hactive : run.isActive .empty = true := by
    rw [hrun]
    rfl
  have hphase : run.phase = .active := by rw [hrun]
  have hdue : run.nextDue = millisecond := by
    rw [hrun]
    rfl
  obtain ⟨-, hwait, hadvance, -⟩ := advance_of_reached hreached hactive walker
  obtain ⟨steps, -, hmachine, -, -, hsteps⟩ := hadvance millisecond
  exact ⟨hreached, hactive, hphase, (hwait hphase).1, hdue, steps, hmachine,
    (hsteps hphase).2 hdue.symm⟩

end AutoRun

end TapeMachine
