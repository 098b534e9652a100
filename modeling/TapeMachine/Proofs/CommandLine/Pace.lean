import TapeMachine.CommandLine.Response
import TapeMachine.Proofs.AutoRun.Schedule
import Mathlib.Tactic.ByContra

/-!
Paced runs. Their loop looks at the limit only after a wake, and a wake makes every step that is due
by then, the first one in any case. So a paced run ends as a run with the same limit does when the
machine halts within the limit, or when some wake makes just as many steps as the limit says. In all
other cases it goes past the limit.
-/

namespace TapeMachine.CommandLine.Paced

open AutoRun

variable {α : Type}

/-- The time on a clock from the first wake to the one that is so many wakes later. -/
def timeLater (clock : Nat → Nat) (later : Nat) : Nat :=
  ((List.range later).map fun turn => clock (turn + 1)).sum

/-- The number of steps that are due by that wake. -/
def stepsDue (clock : Nat → Nat) (interval later : Nat) : Nat :=
  1 + timeLater clock later / interval

theorem timeLater_succ (clock : Nat → Nat) (later : Nat) :
    timeLater clock (later + 1) = timeLater clock later + clock (later + 1) := by
  rw [timeLater, List.range_succ, List.map_append, List.sum_append]
  simp [timeLater]

theorem stepsDue_mono (clock : Nat → Nat) (interval : Nat) {later evenLater : Nat}
    (h : later ≤ evenLater) :
    stepsDue clock interval later ≤ stepsDue clock interval evenLater := by
  refine Nat.add_le_add_left (Nat.div_le_div_right ?_) 1
  induction h with
  | refl => exact Nat.le_refl _
  | step _ ih =>
      rw [timeLater_succ]
      exact Nat.le_add_right_of_le ih

section Wakes

variable (machine : Machine) (limit interval : Nat) (clock : Nat → Nat) (tokens : Tokens)

/-- A paced run of a machine, so many wakes after the first one. -/
structure Woken (later : Nat) (paced : Paced α) : Prop where
  scheduled : Scheduled machine interval (timeLater clock later) paced.run paced.machine
  token : tokens.isCancelled paced.run.token = false
  goesOn : paced.goesOn = true ↔ paced.machine.steps < limit ∧ paced.run.phase = .active

/-- The loop went on after a wake: all its steps were made, and they were fewer than the limit. -/
structure WentOn (later : Nat) : Prop where
  goesOn : (machine.run (stepsDue clock interval later)).1 = .goesOn
  lt_limit : machine.steps + stepsDue clock interval later < limit

variable {machine limit interval clock tokens} {later : Nat} {paced : Paced α}

theorem Woken.machine_eq (h : Woken machine limit interval clock tokens later paced) :
    paced.machine = (machine.run (stepsDue clock interval later)).2 :=
  h.scheduled.machine

theorem Woken.phase_eq_active_iff (h : Woken machine limit interval clock tokens later paced) :
    paced.run.phase = .active ↔ (machine.run (stepsDue clock interval later)).1 = .goesOn := by
  rw [h.scheduled.phase]
  exact Phase.ofStep_eq_active_iff

theorem Woken.wentOn (h : Woken machine limit interval clock tokens later paced)
    (hgoesOn : paced.goesOn = true) : WentOn machine limit interval clock later := by
  obtain ⟨hlimit, hactive⟩ := h.goesOn.1 hgoesOn
  have hrun := h.phase_eq_active_iff.1 hactive
  rw [h.machine_eq, Machine.steps_run_of_goesOn hrun] at hlimit
  exact ⟨hrun, hlimit⟩

theorem isActive_of_scheduled {start : Machine} {time : Nat} {run : AutoRun}
    (h : Scheduled start interval time run machine) (htoken : tokens.isCancelled run.token = false) :
    run.isActive tokens = true ↔ run.phase = .active := by
  have hphase := h.phase
  rw [Phase.ofStep_eq_ite] at hphase
  rw [isActive, htoken, hphase]
  split <;> simp

variable (view : Configuration → α)

theorem woken_wake {time : Nat} (htoken : tokens.isCancelled paced.run.token = false)
    (h : Scheduled machine interval (timeLater clock later)
      (paced.run.advance tokens paced.machine time).run
      (paced.run.advance tokens paced.machine time).machine) :
    Woken machine limit interval clock tokens later (paced.wake view limit tokens time) := by
  have hsame := (follows_advance paced.run tokens paced.machine time).token
  have hnext : tokens.isCancelled (paced.run.advance tokens paced.machine time).run.token = false := by
    rw [hsame]
    exact htoken
  refine ⟨h, hnext, ?_⟩
  simp only [Paced.wake, Bool.and_eq_true, Bool.not_eq_true', decide_eq_false_iff_not, Nat.not_le,
    isActive_of_scheduled h hnext]
  rfl

theorem woken_start (h : tokens.isCancelled (tokens.issue none).1 = false) (interval time : Nat) :
    Woken machine limit (max interval millisecond) clock tokens 0
      ((start tokens interval machine).wake view limit tokens time) :=
  woken_wake view h (scheduled_advance_new h interval machine time)

theorem Woken.wake (h : Woken machine limit interval clock tokens later paced) :
    Woken machine limit interval clock tokens (later + 1)
      (paced.wake view limit tokens (clock (later + 1))) := by
  have hscheduled := h.scheduled.advance h.token (clock (later + 1))
  rw [← timeLater_succ] at hscheduled
  exact woken_wake view h.token hscheduled

theorem Woken.loop (h : Woken machine limit interval clock tokens later paced) (bound : Nat)
    (hexit : (loop view limit tokens clock bound (later + 1) paced).goesOn = false) :
    ∃ last, Woken machine limit interval clock tokens last
        (loop view limit tokens clock bound (later + 1) paced) ∧
      ∀ earlier, later ≤ earlier → earlier < last → WentOn machine limit interval clock earlier := by
  induction bound generalizing later paced with
  | zero => exact ⟨later, h, fun earlier hle hlt => absurd hle (Nat.not_le.2 hlt)⟩
  | succ bound ih =>
      rw [Paced.loop] at hexit ⊢
      split at hexit
      · next hgoesOn =>
          obtain ⟨last, hlast, hearlier⟩ := ih (h.wake view) hexit
          rw [if_pos hgoesOn]
          refine ⟨last, hlast, fun earlier hle hlt => ?_⟩
          rcases Nat.eq_or_lt_of_le hle with rfl | hless
          · exact h.wentOn hgoesOn
          · exact hearlier earlier hless hlt
      · next hgoesOn =>
          rw [if_neg hgoesOn]
          exact ⟨later, h, fun earlier hle hlt => absurd hle (Nat.not_le.2 hlt)⟩

/-- When the loop ends, it ends with some wake, and went on after every earlier one. -/
theorem exists_last (h : tokens.isCancelled (tokens.issue none).1 = false) {interval bound : Nat}
    (hexit : ((start tokens interval machine).loop view limit tokens clock bound 0).goesOn = false) :
    ∃ last, Woken machine limit (max interval millisecond) clock tokens last
        ((start tokens interval machine).loop view limit tokens clock bound 0) ∧
      ∀ earlier < last, WentOn machine limit (max interval millisecond) clock earlier := by
  cases bound with
  | zero => nomatch hexit
  | succ bound =>
      have hfirst : (start tokens interval machine).loop view limit tokens clock (bound + 1) 0 =
          Paced.loop view limit tokens clock bound 1
            ((start tokens interval machine).wake view limit tokens (clock 0)) := rfl
      rw [hfirst] at hexit ⊢
      obtain ⟨last, hlast, hearlier⟩ := (woken_start view h interval (clock 0)).loop view bound hexit
      exact ⟨last, hlast, fun earlier hlt => hearlier earlier (Nat.zero_le earlier) hlt⟩

end Wakes

/-! The outcome. -/

/-- The machine halts within the limit, or some wake makes just as many steps as the limit says. -/
def MeetsLimit (machine : Machine) (limit interval : Nat) (clock : Nat → Nat) : Prop :=
  (machine.run limit).1 ≠ .goesOn ∨ ∃ later, stepsDue clock interval later = limit

section Outcome

variable {machine : Machine} {limit interval last : Nat} {clock : Nat → Nat} {tokens : Tokens}
  {paced : Paced α}

/-- A paced run that shows the same as a run with the limit has kept to the limit. -/
theorem meetsLimit_of_config_eq
    (h : Woken machine limit interval clock tokens last paced) (hrunning : machine.isHalted = false)
    (hconfig : paced.machine.config = (machine.run limit).2.config) :
    MeetsLimit machine limit interval clock := by
  by_contra hnot
  obtain ⟨hhalts, hdue⟩ := not_or.1 hnot
  have hlimit : (machine.run limit).1 = .goesOn := by
    by_contra hne
    exact hhalts hne
  rw [h.machine_eq] at hconfig
  by_cases hgoesOn : (machine.run (stepsDue clock interval last)).1 = .goesOn
  · have hcount : (machine.run (stepsDue clock interval last)).2.steps =
        (machine.run limit).2.steps := congrArg Configuration.steps hconfig
    rw [Machine.steps_run_of_goesOn hgoesOn, Machine.steps_run_of_goesOn hlimit] at hcount
    exact hdue ⟨last, Nat.add_left_cancel hcount⟩
  · have hstatus : (machine.run (stepsDue clock interval last)).2.status =
        (machine.run limit).2.status := congrArg Configuration.status hconfig
    have hended := Machine.isHalted_run_of_halts hgoesOn
    rw [Machine.isHalted_eq_status, hstatus, ← Machine.isHalted_eq_status,
      Machine.isHalted_run_of_goesOn hrunning hlimit] at hended
    contradiction

variable (h : Woken machine limit interval clock tokens last paced)
  (hexit : paced.goesOn = false) (hsteps : machine.steps = 0)

include h hexit

theorem limit_le_of_exit (hactive : paced.run.phase = .active) : limit ≤ paced.machine.steps := by
  by_contra hlt
  rw [h.goesOn.2 ⟨Nat.not_le.1 hlt, hactive⟩] at hexit
  contradiction

include hsteps

theorem limit_le_stepsDue
    (hgoesOn : (machine.run (stepsDue clock interval last)).1 = .goesOn) :
    limit ≤ stepsDue clock interval last := by
  have hle := limit_le_of_exit h hexit (h.phase_eq_active_iff.2 hgoesOn)
  rwa [h.machine_eq, Machine.steps_run_of_goesOn hgoesOn, hsteps, Nat.zero_add] at hle

theorem run_eq_of_meetsLimit
    (hearlier : ∀ earlier < last, WentOn machine limit interval clock earlier)
    (hmeets : MeetsLimit machine limit interval clock) :
    machine.run (stepsDue clock interval last) = machine.run limit := by
  -- The wake that is due as many steps as the limit says is not one after which the loop went on.
  have hnotBefore {later : Nat} (hdue : stepsDue clock interval later = limit) :
      stepsDue clock interval last ≤ limit := by
    rw [← hdue]
    apply stepsDue_mono
    by_contra hlt
    have hlimit := (hearlier later (Nat.not_le.1 hlt)).lt_limit
    omega
  by_cases hgoesOn : (machine.run (stepsDue clock interval last)).1 = .goesOn
  · have hle := limit_le_stepsDue h hexit hsteps hgoesOn
    rcases hmeets with hhalts | ⟨later, hdue⟩
    · exact absurd (Machine.goesOn_of_le hgoesOn hle) hhalts
    · rw [Nat.le_antisymm hle (hnotBefore hdue)]
  · rcases hmeets with hhalts | ⟨later, hdue⟩
    · rcases Nat.le_total limit (stepsDue clock interval last) with hle | hle
      · exact Machine.run_eq_of_le hhalts hle
      · exact (Machine.run_eq_of_le hgoesOn hle).symm
    · exact (Machine.run_eq_of_le hgoesOn (hnotBefore hdue)).symm

end Outcome

/-- When its loop ends, a paced run has made the steps that were due by its last wake, as a run
does. This is what a run with the limit leaves exactly when the machine halts within the limit or
some wake makes just as many steps as the limit says. -/
theorem loop_outcome {definition : Definition} {machine : Machine}
    (hload : Machine.new.load definition = .ok machine) (view : Configuration → α)
    (limit interval : Nat) (clock : Nat → Nat) (bound : Nat)
    (hexit : ((start .empty interval machine).loop view limit .empty clock bound 0).goesOn = false) :
    let left := ((start .empty interval machine).loop view limit .empty clock bound 0).machine
    let due := stepsDue clock (max interval millisecond)
    let meets := MeetsLimit machine limit (max interval millisecond) clock
    (∃ last, left = (machine.run (due last)).2 ∧ ∀ earlier < last, due earlier < limit) ∧
      (left.isHalted = false → limit ≤ left.steps) ∧
      (meets → left = (machine.run limit).2) ∧
      (left.config = (machine.run limit).2.config ↔ meets) := by
  intro left due meets
  obtain ⟨table, -, rfl⟩ := Machine.load_eq_ok_iff.1 hload
  obtain ⟨last, hlast, hearlier⟩ := exists_last view rfl hexit
  have hmeets (h : meets) : left = ((Machine.new.setUp definition table).run limit).2 := by
    rw [← run_eq_of_meetsLimit hlast hexit rfl hearlier h]
    exact hlast.machine_eq
  refine ⟨⟨last, hlast.machine_eq, fun earlier hlt => ?_⟩, fun hrunning => ?_, hmeets, ?_, ?_⟩
  · have hlimit := (hearlier earlier hlt).lt_limit
    exact Nat.lt_of_le_of_lt (Nat.le_add_left ..) hlimit
  · apply limit_le_of_exit hlast hexit
    rw [hlast.phase_eq_active_iff]
    by_contra hhalts
    have hhalted := Machine.isHalted_run_of_halts hhalts
    rw [← hlast.machine_eq] at hhalted
    rw [show left.isHalted = true from hhalted] at hrunning
    contradiction
  · exact meetsLimit_of_config_eq hlast rfl
  · intro h
    rw [hmeets h]

/-- A machine that accepts with its first step. -/
def oneStep : Definition :=
  ⟨none, "", "q", ["f"], none, ["q,_->f,a,R"]⟩

/-- A machine that writes for ever. -/
def writer : Definition :=
  ⟨none, "", "q", [], none, ["q,_->q,a,R"]⟩

def loadedOneStep : Machine :=
  Machine.new.setUp oneStep (Table.empty.insert ⟨⟨"q", '_'⟩, ⟨"f", 'a', .right⟩⟩)

def loadedWriter : Machine :=
  Machine.new.setUp writer (Table.empty.insert ⟨⟨"q", '_'⟩, ⟨"q", 'a', .right⟩⟩)

/-- The clock of the first loop is never late, and the second one's is by two intervals. -/
theorem loop_passes_limit :
    (Machine.new.load oneStep = .ok loadedOneStep ∧
      let paced := (start .empty millisecond loadedOneStep : Paced Unit).loop (fun _ => ()) 0 .empty
        (fun _ => millisecond) 1 0
      paced.goesOn = false ∧ paced.machine.steps = 1 ∧ (loadedOneStep.run 0).2.steps = 0 ∧
        Options.exitCode paced.machine = 0 ∧ Options.exitCode (loadedOneStep.run 0).2 = 1) ∧
    Machine.new.load writer = .ok loadedWriter ∧
      let paced := (start .empty millisecond loadedWriter : Paced Unit).loop (fun _ => ()) 2 .empty
        (fun _ => 3 * millisecond) 2 0
      paced.goesOn = false ∧ paced.machine.steps = 4 ∧ (loadedWriter.run 2).2.steps = 2 := by
  refine ⟨⟨by rfl, ?_⟩, by rfl, ?_⟩
  · exact ⟨by rfl, by rfl, by rfl, by rfl, by rfl⟩
  · exact ⟨by rfl, by rfl, by rfl⟩

/-- On time for each step, a paced run of the writer stops at a limit of two. -/
theorem loop_outcome_writer :
    Machine.new.load writer = .ok loadedWriter ∧
      let paced := (start .empty millisecond loadedWriter : Paced Unit).loop (fun _ => ()) 2 .empty
        (fun _ => millisecond) 2 0
      paced.goesOn = false ∧ paced.machine = (loadedWriter.run 2).2 := by
  have hload : Machine.new.load writer = .ok loadedWriter := by rfl
  have hexit : ((start .empty millisecond loadedWriter : Paced Unit).loop (fun _ => ()) 2 .empty
      (fun _ => millisecond) 2 0).goesOn = false := by rfl
  have hmeets : MeetsLimit loadedWriter 2 (max millisecond millisecond) (fun _ => millisecond) :=
    .inr ⟨1, by decide⟩
  obtain ⟨-, -, hequal, -⟩ := loop_outcome hload (fun _ => ()) 2 millisecond _ 2 hexit
  exact ⟨hload, hexit, hequal hmeets⟩

end TapeMachine.CommandLine.Paced
