import TapeMachine.CommandLine.Response
import TapeMachine.Proofs.Machine.Run

/-!
Traced runs. A trace steps by a loop of its own and shows a configuration whenever its step applied
an action. It leaves the machine that a run leaves, and shows what the machine passed through, each
configuration once: a step that finds no rule applies nothing and shows nothing.
-/

namespace TapeMachine

/-- What a run that ended with this step halted in. -/
def Step.halt? : Step → Option Halt
  | .goesOn => none
  | .halts halt => some halt

theorem Machine.StepCase.isHalted {machine : Machine} {result : Step × Machine}
    (h : StepCase machine result) (hstep : result.1 = .halts .alreadyHalted) :
    machine.isHalted = true := by
  cases h with
  | halted hhalted => exact hhalted
  | rejects | accepts | moves => cases hstep

/-- Each of the first so many steps applies an action. -/
def Machine.Applies (machine : Machine) (count : Nat) : Prop :=
  ∀ earlier < count, (machine.stepTimes earlier).2.step.1.applied = true

theorem Machine.Applies.succ {machine : Machine} {count : Nat} (hfirst : machine.step.1.applied = true)
    (hlater : machine.step.2.Applies count) : machine.Applies (count + 1) := by
  intro earlier hlt
  cases earlier with
  | zero => exact hfirst
  | succ earlier =>
      rw [stepTimes_succ]
      exact hlater earlier (Nat.lt_of_succ_lt_succ hlt)

theorem Machine.Applies.steps {machine : Machine} {count : Nat} (h : machine.Applies count) :
    (machine.stepTimes count).2.steps = machine.steps + count := by
  induction count with
  | zero => rfl
  | succ count ih =>
      have hlast := h count (Nat.lt_succ_self count)
      show (machine.stepTimes count).2.step.2.steps = _
      rw [(step_cases _).steps, ih fun earlier hlt => h earlier (Nat.lt_succ_of_lt hlt), hlast,
        Bool.toNat_true, Nat.add_assoc]

/-- The configurations of a machine after none of its actions, after one, and so on up to so many. -/
def Machine.passes (machine : Machine) (count : Nat) : List Configuration :=
  (List.range (count + 1)).map fun made => (machine.stepTimes made).2.config

theorem Machine.passes_succ (machine : Machine) (count : Nat) :
    machine.passes (count + 1) = machine.config :: machine.step.2.passes count := by
  rw [passes, List.range_succ_eq_map, List.map_cons, List.map_map]
  refine congrArg₂ List.cons rfl (List.map_congr_left fun made _ => ?_)
  exact congrArg config (machine.stepTimes_succ made)

theorem Machine.Applies.steps_passes {machine : Machine} {count : Nat} (h : machine.Applies count) :
    (machine.passes count).map Configuration.steps =
      (List.range (count + 1)).map (machine.steps + ·) := by
  rw [passes, List.map_map]
  refine List.map_congr_left fun made hmade => ?_
  have hle : made ≤ count := Nat.le_of_lt_succ (List.mem_range.1 hmade)
  exact Applies.steps fun earlier hlt => h earlier (Nat.lt_of_lt_of_le hlt hle)

namespace CommandLine

section Trace

variable {α : Type} (view : Configuration → α) (shown : List α) {machine : Machine} {halt : Halt}

theorem traceOnto_succ_of_goesOn (h : machine.step.1 = .goesOn) (limit : Nat) :
    traceOnto view shown (limit + 1) machine =
      traceOnto view (view machine.step.2.config :: shown) limit machine.step.2 := by
  have hstep : machine.step = (.goesOn, machine.step.2) := Prod.ext h rfl
  rw [traceOnto, hstep]

theorem traceOnto_succ_of_halts (h : machine.step.1 = .halts halt) (limit : Nat) :
    traceOnto view shown (limit + 1) machine =
      ⟨if halt = .rejected then shown else view machine.step.2.config :: shown, some halt,
        machine.step.2⟩ := by
  have hstep : machine.step = (.halts halt, machine.step.2) := Prod.ext h rfl
  rw [traceOnto, hstep]
  cases halt <;> rfl

/-- A trace ends as a run does. -/
theorem traceOnto_ends (limit : Nat) (machine : Machine) :
    (traceOnto view shown limit machine).machine = (machine.run limit).2 ∧
      (traceOnto view shown limit machine).halt = (machine.run limit).1.halt? := by
  induction limit generalizing machine shown with
  | zero => exact ⟨rfl, rfl⟩
  | succ limit ih =>
      cases hstep : machine.step.1 with
      | goesOn =>
          rw [traceOnto_succ_of_goesOn view shown hstep, Machine.run_succ_of_goesOn hstep]
          exact ih _ _
      | halts halt =>
          rw [traceOnto_succ_of_halts view shown hstep,
            Machine.run_succ_of_halts (by rw [hstep]; nofun), hstep]
          exact ⟨rfl, rfl⟩

theorem shown_traceOnto (limit : Nat) (machine : Machine) :
    (traceOnto view shown limit machine).shown = (trace view limit machine).shown ++ shown := by
  induction limit generalizing machine shown with
  | zero => rfl
  | succ limit ih =>
      rw [trace]
      cases hstep : machine.step.1 with
      | goesOn =>
          rw [traceOnto_succ_of_goesOn view shown hstep, traceOnto_succ_of_goesOn view [] hstep, ih,
            ih [_], List.append_assoc]
          rfl
      | halts halt =>
          rw [traceOnto_succ_of_halts view shown hstep, traceOnto_succ_of_halts view [] hstep]
          split <;> rfl

/-- With what it began with, a trace of a machine that had not halted shows every configuration from
there on. -/
theorem shown_trace (limit : Nat) (hrunning : machine.isHalted = false) :
    ∃ count, machine.Applies count ∧ (machine.run limit).2.steps = machine.steps + count ∧
      view machine.config :: (trace view limit machine).shown.reverse =
        (machine.passes count).map view := by
  induction limit generalizing machine with
  | zero => exact ⟨0, nofun, rfl, rfl⟩
  | succ limit ih =>
      have hcases := machine.step_cases
      have hsteps := hcases.steps
      cases hstep : machine.step.1 with
      | goesOn =>
          rw [hstep] at hsteps
          obtain ⟨count, happlies, hcount, hshown⟩ := ih (hcases.isHalted_eq_false_iff.2 hstep)
          refine ⟨count + 1, happlies.succ (by rw [hstep]; rfl), ?_, ?_⟩
          · rw [Machine.run_succ_of_goesOn hstep, hcount, hsteps, Nat.add_right_comm, Nat.add_assoc]
            rfl
          · rw [trace, traceOnto_succ_of_goesOn view [] hstep, shown_traceOnto,
              List.reverse_append, Machine.passes_succ, List.map_cons, ← hshown]
            rfl
      | halts halt =>
          rw [hstep] at hsteps
          rw [Machine.run_succ_of_halts (by rw [hstep]; nofun), trace,
            traceOnto_succ_of_halts view [] hstep]
          cases halt with
          | accepted =>
              refine ⟨1, Machine.Applies.succ (by rw [hstep]; rfl) nofun, hsteps, ?_⟩
              rw [Machine.passes_succ]
              rfl
          | rejected => exact ⟨0, nofun, hsteps, rfl⟩
          | alreadyHalted =>
              rw [hcases.isHalted hstep] at hrunning
              cases hrunning

end Trace

/-- The line that tells how a traced run ended. -/
theorem endLines_halt? (limit : Nat) (step : Step) :
    ∃ ending, endLines limit step.halt? = ["", ending] ∧
      (ending = "Step limit of " ++ toString limit ++ " reached." ↔ step = .goesOn) ∧
      ∀ halt, step = .halts halt → ending = "Machine halted: " ++ halt.text := by
  cases step with
  | goesOn => exact ⟨_, rfl, iff_of_true rfl rfl, nofun⟩
  | halts halt =>
      refine ⟨_, rfl, iff_of_false (fun heq => ?_) nofun, ?_⟩
      · have hfirst := congrArg (·.toList.head?) heq
        simp [String.toList_append] at hfirst
      · rintro other ⟨⟩
        rfl

/-- A traced run prints every configuration once, from the one it begins with to the one after the
last action, and leaves the machine that a run with the same limit leaves. Its last line tells of
the limit when that run goes on, and else how it halts. -/
theorem run_traced {definition : Definition} {machine : Machine}
    (hload : Machine.new.load definition = .ok machine) {options : Options}
    (hdebug : options.debug = true) (hdelay : options.delay = none) :
    let last := machine.run options.limit
    let states := machine.passes last.2.steps
    machine.Applies last.2.steps ∧
      states.map Configuration.steps = List.range (last.2.steps + 1) ∧
      machine.config :: (trace id options.limit machine).shown.reverse = states ∧
      (options.run machine).2 = last.2 ∧
      ∃ ending, options.opening machine ++ (options.run machine).1 =
          states.map stateLine ++ ["", ending] ∧
        (ending = "Step limit of " ++ toString options.limit ++ " reached." ↔ last.1 = .goesOn) ∧
        ∀ halt, last.1 = .halts halt → ending = "Machine halted: " ++ halt.text := by
  intro last states
  obtain ⟨hrunning, hzero⟩ : machine.isHalted = false ∧ machine.steps = 0 := by
    obtain ⟨table, -, rfl⟩ := Machine.load_eq_ok_iff.1 hload
    exact ⟨rfl, rfl⟩
  have hshown {α : Type} (view : Configuration → α) : machine.Applies last.2.steps ∧
      view machine.config :: (trace view options.limit machine).shown.reverse =
        states.map view := by
    obtain ⟨count, happlies, hcount, hshown⟩ := shown_trace view options.limit hrunning
    rw [hzero, Nat.zero_add] at hcount
    rw [show states = machine.passes last.2.steps from rfl, hcount]
    exact ⟨happlies, hshown⟩
  obtain ⟨happlies, hstates⟩ := hshown id
  obtain ⟨hmachine, hhalt⟩ := traceOnto_ends stateLine [] options.limit machine
  obtain ⟨ending, hend, htells⟩ := endLines_halt? options.limit last.1
  have hrun : options.run machine = ((trace stateLine options.limit machine).shown.reverse ++
      ["", ending], last.2) := by
    rw [Options.run, hdelay]
    show options.runAtOnce machine = _
    rw [Options.runAtOnce, if_pos hdebug, ← hend, ← hhalt, ← hmachine]
    rfl
  refine ⟨happlies, ?_, hstates.trans (List.map_id _), congrArg Prod.snd hrun, ending, ?_, htells⟩
  · rw [happlies.steps_passes, hzero]
    simp only [Nat.zero_add, List.map_id']
  · rw [hrun, Options.opening, if_pos hdebug, ← (hshown stateLine).2]
    rfl

/-- A machine that has a rule for its first step and none for the second. -/
def once : Definition :=
  ⟨none, "", "q", [], none, ["q,_->p,a,R"]⟩

def loadedOnce : Machine :=
  Machine.new.setUp once (Table.empty.insert ⟨⟨"q", '_'⟩, ⟨"p", 'a', .right⟩⟩)

/-- The step that finds no rule prints nothing but how it halts the run. -/
theorem run_traced_once :
    let options : Options :=
      ⟨none, none, false, none, none, none, none, none, true, none, some 2, false⟩
    Machine.new.load once = .ok loadedOnce ∧ options.debug = true ∧ options.delay = none ∧
      (options.run loadedOnce).2 = (loadedOnce.run 2).2 ∧
      options.opening loadedOnce ++ (options.run loadedOnce).1 =
        [stateLine loadedOnce.config, stateLine loadedOnce.step.2.config, "",
          "Machine halted: Rejected"] := by
  intro options
  have hload : Machine.new.load once = .ok loadedOnce := by rfl
  have hsteps : (loadedOnce.run 2).2.steps = 1 := by rfl
  have hhalts : (loadedOnce.run 2).1 = .halts .rejected := by rfl
  obtain ⟨-, -, -, hmachine, ending, hprinted, -, hending⟩ :=
    @run_traced once loadedOnce hload options rfl rfl
  have hlimit : options.limit = 2 := rfl
  rw [hlimit] at hmachine hprinted hending
  refine ⟨hload, rfl, rfl, hmachine, ?_⟩
  rw [hprinted, hsteps, hending .rejected hhalts]
  rfl

end CommandLine

end TapeMachine
