import TapeMachine.AutoRun.Basic
import TapeMachine.Proofs.Machine.Run
import Mathlib.Algebra.GroupWithZero.Nat

/-!
The schedule of an automatic run. It makes one step at once and then one for each full interval of
the whole time, however that time is divided into calls: what a call leaves over counts for the next
one. So the machine is where a run with that many steps would leave it.
-/

namespace TapeMachine

/-- The phase that a step leaves an automatic run in. -/
def Phase.ofStep : Step → Phase
  | .goesOn => .active
  | .halts _ => .finished

theorem Phase.ofStep_eq_ite (step : Step) :
    ofStep step = if step = .goesOn then .active else .finished := by
  cases step <;> rfl

theorem Phase.ofStep_eq_active_iff {step : Step} : ofStep step = .active ↔ step = .goesOn := by
  cases step <;> simp [ofStep]

theorem Phase.ofStep_of_halts {step : Step} (h : step ≠ .goesOn) : ofStep step = .finished := by
  rw [ofStep_eq_ite, if_neg h]

namespace Progress

/-- The progress with one interval of the elapsed time used up. -/
def spend (progress : Progress) : Progress :=
  { progress with
    run := { progress.run with elapsed := progress.run.elapsed - progress.run.interval } }

theorem fireDue_succ (tokens : Tokens) (count : Nat) (progress : Progress) :
    fireDue tokens (count + 1) progress =
      if progress.run.phase = .active ∧ progress.run.interval ≤ progress.run.elapsed then
        fireDue tokens count (fire tokens progress.spend)
      else progress := by
  simp only [fireDue, Bool.and_eq_true, decide_eq_true_eq]
  rfl

theorem fireDue_of_not_active {tokens : Tokens} {progress : Progress}
    (h : progress.run.phase ≠ .active) (count : Nat) : fireDue tokens count progress = progress := by
  cases count with
  | zero => rfl
  | succ count => rw [fireDue_succ, if_neg fun hdue => h hdue.1]

/-- The run is finished by a step that halts the machine or finds it halted. -/
theorem fire_of_not_cancelled {tokens : Tokens} {progress : Progress}
    (h : tokens.isCancelled progress.run.token = false) :
    fire tokens progress =
      ⟨if progress.machine.step.1 = .goesOn then progress.run
        else { progress.run with phase := .finished },
        progress.machine.step.2, progress.applied + progress.machine.step.1.applied.toNat⟩ := by
  have hhalted := progress.machine.step_cases.isHalted_eq_false_iff
  rw [fire, h, if_neg Bool.false_ne_true]
  generalize progress.machine.step = result at hhalted ⊢
  obtain ⟨step, machine⟩ := result
  cases step with
  | goesOn => simp [hhalted.2 rfl, Step.applied]
  | halts halt =>
      have hhalted : machine.isHalted = true := by simpa using hhalted
      simp [hhalted]

theorem elapsed_fire (tokens : Tokens) (progress : Progress) :
    (fire tokens progress).run.elapsed = progress.run.elapsed := by
  cases h : tokens.isCancelled progress.run.token with
  | true => rw [fire, h, if_pos rfl]
  | false =>
      rw [fire_of_not_cancelled h]
      split <;> rfl

/-! What every step of an automatic run keeps to, made or not. -/

/-- The interval and the token stay, and the actions that the machine applies are counted. -/
structure Follows (before after : Progress) : Prop where
  interval : after.run.interval = before.run.interval
  token : after.run.token = before.run.token
  steps : after.machine.steps + before.applied = before.machine.steps + after.applied

theorem Follows.refl (progress : Progress) : Follows progress progress :=
  ⟨rfl, rfl, rfl⟩

theorem Follows.trans {first second third : Progress} (h : Follows first second)
    (hnext : Follows second third) : Follows first third := by
  refine ⟨hnext.interval.trans h.interval, hnext.token.trans h.token, ?_⟩
  have hfirst := h.steps
  have hsecond := hnext.steps
  omega

theorem follows_fire (tokens : Tokens) (progress : Progress) :
    Follows progress (fire tokens progress) := by
  cases h : tokens.isCancelled progress.run.token with
  | true =>
      rw [fire, h, if_pos rfl]
      exact ⟨rfl, rfl, rfl⟩
  | false =>
      have hsteps := progress.machine.step_cases.steps
      rw [fire_of_not_cancelled h]
      split
      · exact ⟨rfl, rfl, by dsimp only; omega⟩
      · exact ⟨rfl, rfl, by dsimp only; omega⟩

theorem follows_fireDue (tokens : Tokens) (count : Nat) (progress : Progress) :
    Follows progress (fireDue tokens count progress) := by
  induction count generalizing progress with
  | zero => exact .refl progress
  | succ count ih =>
      have hspend : Follows progress progress.spend := ⟨rfl, rfl, rfl⟩
      rw [fireDue_succ]
      split
      · exact (hspend.trans (follows_fire tokens _)).trans (ih _)
      · exact .refl progress

/-! The steps that are due. -/

/-- So many steps have been made, or those up to the one that ended the run. As long as it goes on,
they took this time. -/
structure Makes (count cost : Nat) (before after : Progress) : Prop where
  machine : after.machine = (before.machine.run count).2
  phase : after.run.phase = .ofStep (before.machine.run count).1
  elapsed : after.run.phase = .active → after.run.elapsed + cost = before.run.elapsed

theorem Makes.add {first second cost more : Nat} {before middle after : Progress}
    (h : Makes first cost before middle) (hactive : middle.run.phase = .active)
    (hnext : Makes second more middle after) :
    Makes (first + second) (cost + more) before after := by
  have hgoesOn := Phase.ofStep_eq_active_iff.1 (h.phase.symm.trans hactive)
  have helapsed := h.elapsed hactive
  refine ⟨?_, ?_, fun hafter => ?_⟩
  · rw [hnext.machine, h.machine, Machine.run_add_of_goesOn hgoesOn]
  · rw [hnext.phase, h.machine, Machine.run_add_of_goesOn hgoesOn]
  · have hmore := hnext.elapsed hafter
    omega

/-- After its last step a run makes no more, so it has made any greater number of them as well. -/
theorem Makes.ended {count cost : Nat} {before after : Progress} (h : Makes count cost before after)
    (hended : after.run.phase ≠ .active) (more other : Nat) :
    Makes (count + more) other before after := by
  have hhalts : (before.machine.run count).1 ≠ .goesOn :=
    fun hgoesOn => hended (h.phase.trans (Phase.ofStep_eq_active_iff.2 hgoesOn))
  have hrun := Machine.run_add_of_halts hhalts more
  exact ⟨by rw [hrun, h.machine], by rw [hrun, h.phase], fun hactive => absurd hactive hended⟩

section Due

variable {tokens : Tokens} {progress : Progress} (hactive : progress.run.phase = .active)
  (h : tokens.isCancelled progress.run.token = false)

include hactive h

theorem makes_fire : Makes 1 0 progress (fire tokens progress) := by
  rw [fire_of_not_cancelled h]
  split
  · next hgoesOn =>
      exact ⟨by rw [Machine.run_one], by rw [Machine.run_one, hgoesOn, hactive, Phase.ofStep],
        fun _ => rfl⟩
  · next hhalts =>
      refine ⟨by rw [Machine.run_one], ?_, nofun⟩
      rw [Machine.run_one, Phase.ofStep_of_halts hhalts]

/-- Each interval of the elapsed time is used for a step, until one ends the run. -/
theorem makes_fireDue {count : Nat} (hdue : count * progress.run.interval ≤ progress.run.elapsed) :
    Makes count (count * progress.run.interval) progress (fireDue tokens count progress) := by
  induction count generalizing progress with
  | zero => exact ⟨rfl, hactive, fun _ => by rw [fireDue, Nat.zero_mul, Nat.add_zero]⟩
  | succ count ih =>
      rw [Nat.succ_mul] at hdue
      have hle : progress.run.interval ≤ progress.run.elapsed := by omega
      have hspend : Makes 0 progress.run.interval progress progress.spend :=
        ⟨rfl, hactive, fun _ => Nat.sub_add_cancel hle⟩
      have hfirst : Makes 1 progress.run.interval progress (fire tokens progress.spend) :=
        hspend.add hactive (makes_fire hactive h)
      have hfollows := follows_fire tokens progress.spend
      rw [fireDue_succ, if_pos ⟨hactive, hle⟩, Nat.add_comm count, Nat.add_mul, Nat.one_mul]
      by_cases hnext : (fire tokens progress.spend).run.phase = .active
      · have hinterval : (fire tokens progress.spend).run.interval = progress.run.interval :=
          hfollows.interval
        have helapsed := hfirst.elapsed hnext
        have hrest := ih hnext (by rw [hfollows.token]; exact h) (by rw [hinterval]; omega)
        rw [hinterval] at hrest
        exact hfirst.add hnext hrest
      · rw [fireDue_of_not_active hnext]
        exact hfirst.ended hnext count _

end Due

end Progress

namespace AutoRun

/-- An automatic run and its machine, this time after the run's first step. -/
structure Scheduled (start : Machine) (interval time : Nat) (run : AutoRun) (machine : Machine) :
    Prop where
  interval_eq : run.interval = interval
  machine : machine = (start.run (1 + time / interval)).2
  phase : run.phase = .ofStep (start.run (1 + time / interval)).1
  elapsed : run.phase = .active → run.elapsed = time % interval

theorem interval_pos (run : AutoRun) : 0 < run.interval :=
  Nat.lt_of_lt_of_le (by decide) run.millisecond_le

/-- The actions that an advance applies are counted, and the run's interval and token stay. -/
theorem follows_advance (run : AutoRun) (tokens : Tokens) (machine : Machine) (time : Nat) :
    Progress.Follows ⟨run, machine, 0⟩ (run.advance tokens machine time) := by
  rw [advance]
  refine .trans ?_ (Progress.follows_fireDue tokens _ _)
  split
  · have hactive : Progress.Follows ⟨run, machine, 0⟩ ⟨{ run with phase := .active }, machine, 0⟩ :=
      ⟨rfl, rfl, rfl⟩
    exact hactive.trans (Progress.follows_fire tokens _)
  · exact ⟨rfl, rfl, rfl⟩
  · exact .refl _
  · exact .refl _

variable {run : AutoRun} {tokens : Tokens} {machine start : Machine} {interval time : Nat}

theorem advance_pending (hpending : run.phase = .pending) (hnone : run.elapsed = 0)
    (tokens : Tokens) (machine : Machine) (time : Nat) :
    run.advance tokens machine time =
      Progress.fire tokens ⟨{ run with phase := .active }, machine, 0⟩ := by
  rw [advance, hpending]
  dsimp only
  rw [Progress.elapsed_fire, hnone, Nat.zero_div, Progress.fireDue]

theorem advance_active (hactive : run.phase = .active) (tokens : Tokens) (machine : Machine)
    (time : Nat) : run.advance tokens machine time =
      Progress.fireDue tokens ((run.elapsed + time) / run.interval)
        ⟨{ run with elapsed := run.elapsed + time }, machine, 0⟩ := by
  rw [advance, hactive]

theorem advance_finished (hfinished : run.phase = .finished) (tokens : Tokens) (machine : Machine)
    (time : Nat) : run.advance tokens machine time = ⟨run, machine, 0⟩ := by
  have hnot : (⟨run, machine, 0⟩ : Progress).run.phase ≠ .active := by
    rw [hfinished]
    nofun
  rw [advance, hfinished]
  exact Progress.fireDue_of_not_active hnot _

/-- The first advance makes the first step, whatever time it is told of. -/
theorem scheduled_advance_new {token : Token} (h : tokens.isCancelled token = false)
    (interval : Nat) (machine : Machine) (time : Nat) :
    let progress := (new interval token).advance tokens machine time
    Scheduled machine (max interval millisecond) 0 progress.run progress.machine := by
  have hinterval := (follows_advance (new interval token) tokens machine time).interval
  have hmakes : Progress.Makes 1 0 ⟨{ new interval token with phase := .active }, machine, 0⟩ _ :=
    Progress.makes_fire rfl h
  rw [← advance_pending rfl rfl] at hmakes
  refine ⟨hinterval, ?_, ?_, fun hactive => ?_⟩
  · rw [Nat.zero_div]
    exact hmakes.machine
  · rw [Nat.zero_div]
    exact hmakes.phase
  · rw [Nat.zero_mod]
    exact hmakes.elapsed hactive

/-- A later advance makes a step for each interval that became full. -/
theorem Scheduled.advance (hscheduled : Scheduled start interval time run machine)
    (h : tokens.isCancelled run.token = false) (more : Nat) :
    let progress := run.advance tokens machine more
    Scheduled start interval (time + more) progress.run progress.machine := by
  obtain ⟨rfl, hmachine, hphase, helapsed⟩ := hscheduled
  have hinterval := (follows_advance run tokens machine more).interval
  by_cases hgoesOn : (start.run (1 + time / run.interval)).1 = .goesOn
  · have hactive : run.phase = .active := hphase.trans (Phase.ofStep_eq_active_iff.2 hgoesOn)
    have hmakes : Progress.Makes _ _ ⟨{ run with elapsed := run.elapsed + more }, machine, 0⟩ _ :=
      Progress.makes_fireDue hactive h (Nat.div_mul_le_self (run.elapsed + more) run.interval)
    rw [← advance_active hactive, helapsed hactive] at hmakes
    -- What the earlier time left over is full together with the first part of the later one.
    have hdue : 1 + (time + more) / run.interval =
        1 + time / run.interval + (time % run.interval + more) / run.interval := by
      have hsplit : time + more =
          run.interval * (time / run.interval) + (time % run.interval + more) := by
        rw [← Nat.add_assoc, Nat.div_add_mod]
      rw [hsplit, Nat.mul_add_div run.interval_pos, Nat.add_assoc]
    have hrun := Machine.run_add_of_goesOn hgoesOn ((time % run.interval + more) / run.interval)
    rw [← hmachine, ← hdue] at hrun
    refine ⟨hinterval, ?_, ?_, fun hnext => ?_⟩
    · rw [hrun]
      exact hmakes.machine
    · rw [hrun]
      exact hmakes.phase
    · have hleft := hmakes.elapsed hnext
      rw [← Nat.mod_add_mod]
      apply Nat.add_right_cancel
      rw [Nat.mod_add_div']
      exact hleft
  · have hfinished : run.phase = .finished := hphase.trans (Phase.ofStep_of_halts hgoesOn)
    have hle : 1 + time / run.interval ≤ 1 + (time + more) / run.interval :=
      Nat.add_le_add_left (Nat.div_le_div_right (Nat.le_add_right time more)) 1
    have hrun := Machine.run_eq_of_le hgoesOn hle
    rw [advance_finished hfinished]
    exact ⟨rfl, hrun ▸ hmachine, hrun ▸ hphase, fun hactive => by simp [hfinished] at hactive⟩

/-- A call to advance: the tokens at that moment, and the time that has gone by. -/
structure Call where
  tokens : Tokens
  time : Nat
deriving DecidableEq

/-- Makes the calls one after the other. Gives the number of actions that all of them applied. -/
def advanceAll (run : AutoRun) (machine : Machine) : List Call → Progress
  | [] => ⟨run, machine, 0⟩
  | call :: calls =>
      let progress := run.advance call.tokens machine call.time
      let later := progress.run.advanceAll progress.machine calls
      { later with applied := progress.applied + later.applied }

theorem follows_advanceAll (run : AutoRun) (machine : Machine) (calls : List Call) :
    Progress.Follows ⟨run, machine, 0⟩ (run.advanceAll machine calls) := by
  induction calls generalizing run machine with
  | nil => exact .refl _
  | cons call calls ih =>
      obtain ⟨hinterval, htoken, hsteps⟩ := follows_advance run call.tokens machine call.time
      obtain ⟨hlater, hlaterToken, hlaterSteps⟩ :=
        ih (run.advance call.tokens machine call.time).run
          (run.advance call.tokens machine call.time).machine
      rw [advanceAll]
      refine ⟨hlater.trans hinterval, hlaterToken.trans htoken, ?_⟩
      dsimp only at hsteps hlaterSteps ⊢
      omega

theorem Scheduled.advanceAll (hscheduled : Scheduled start interval time run machine)
    {calls : List Call} (h : ∀ call ∈ calls, call.tokens.isCancelled run.token = false) :
    let progress := run.advanceAll machine calls
    Scheduled start interval (time + (calls.map (·.time)).sum) progress.run progress.machine := by
  induction calls generalizing run machine time with
  | nil => exact hscheduled
  | cons call calls ih =>
      have htoken := (follows_advance run call.tokens machine call.time).token
      have hnext := hscheduled.advance (h call List.mem_cons_self) call.time
      rw [List.map_cons, List.sum_cons, ← Nat.add_assoc]
      refine ih hnext fun later hlater => ?_
      rw [htoken]
      exact h later (List.mem_cons_of_mem call hlater)

/-- However the time is divided into calls, a new automatic run makes one step at the first of them
and one for each full interval of the time from then on, and stops with the step that halts. -/
theorem advanceAll_new (interval : Nat) (token : Token) (machine : Machine) (first : Call)
    (later : List Call) (h : ∀ call ∈ first :: later, call.tokens.isCancelled token = false) :
    let progress := (new interval token).advanceAll machine (first :: later)
    let due := 1 + (later.map (·.time)).sum / max interval millisecond
    progress.machine = (machine.run due).2 ∧
      machine.steps + progress.applied = progress.machine.steps ∧
      progress.run.phase = if (machine.run due).1 = .goesOn then .active else .finished := by
  intro progress due
  have hfirst := scheduled_advance_new (h first List.mem_cons_self) interval machine first.time
  have htoken :=
    (follows_advance (new interval token) first.tokens machine first.time).token
  have hlast := hfirst.advanceAll fun call (hcall : call ∈ later) => by
    rw [htoken]
    exact h call (List.mem_cons_of_mem first hcall)
  rw [Nat.zero_add] at hlast
  have hsteps := (follows_advanceAll (new interval token) machine (first :: later)).steps
  refine ⟨hlast.machine, hsteps.symm, ?_⟩
  rw [← Phase.ofStep_eq_ite]
  exact hlast.phase

/-- A machine that walks to the right for ever. -/
def walker : Machine :=
  Machine.new.setUp ⟨none, "", "q", [], none, []⟩
    (Table.empty.insert ⟨⟨"q", '_'⟩, ⟨"q", '_', .right⟩⟩)

theorem advanceAll_new_walker :
    let token := (Tokens.empty.issue none).1
    let first : Call := ⟨.empty, 700000⟩
    let later : List Call := [⟨.empty, 1600000⟩, ⟨.empty, 0⟩, ⟨.empty, 1500000⟩]
    (∀ call ∈ first :: later, call.tokens.isCancelled token = false) ∧
      let progress := (new 0 token).advanceAll walker (first :: later)
      progress.machine = (walker.run 4).2 ∧ progress.applied = 4 ∧ progress.run.phase = .active := by
  intro token first later
  have hcalls : ∀ call ∈ first :: later, call.tokens.isCancelled token = false := by decide
  have hdue : 1 + (later.map (·.time)).sum / max 0 millisecond = 4 := by decide
  have hgoesOn : (walker.run 4).1 = .goesOn := by rfl
  obtain ⟨hmachine, hsteps, hphase⟩ := advanceAll_new 0 token walker first later hcalls
  rw [hdue] at hmachine hphase
  refine ⟨hcalls, hmachine, ?_, hphase.trans (if_pos hgoesOn)⟩
  rw [hmachine, Machine.steps_run_of_goesOn hgoesOn] at hsteps
  exact Nat.add_left_cancel hsteps

end AutoRun

end TapeMachine
