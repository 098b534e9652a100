import TapeMachine.Proofs.Machine.Step

/-!
Runs as chains of steps. A run that went on is taken further by a second one, and a run that halted
is the same under every greater limit. As long as a run goes on, each of its steps applies an action
and the machine is not halted.
-/

namespace TapeMachine.Machine

theorem StepCase.steps {machine : Machine} {result : Step × Machine}
    (h : StepCase machine result) :
    result.2.steps = machine.steps + result.1.applied.toNat := by
  cases h <;> rfl

/-- A step leaves the machine halted unless it goes on. -/
theorem StepCase.isHalted_eq_false_iff {machine : Machine} {result : Step × Machine}
    (h : StepCase machine result) : result.2.isHalted = false ↔ result.1 = .goesOn := by
  cases h with
  | halted hhalted =>
      refine iff_of_false ?_ nofun
      rw [Bool.not_eq_false]
      exact hhalted
  | rejects | accepts => exact iff_of_false nofun nofun
  | moves hrunning => exact iff_of_true hrunning rfl

theorem run_succ_of_goesOn {machine : Machine} (h : machine.step.1 = .goesOn) (limit : Nat) :
    machine.run (limit + 1) = machine.step.2.run limit := by
  rw [run]
  split
  · next hstep => rw [hstep]
  · next hstep => exact (hstep machine.step.2 (Prod.ext h rfl)).elim

theorem run_succ_of_halts {machine : Machine} (h : machine.step.1 ≠ .goesOn) (limit : Nat) :
    machine.run (limit + 1) = machine.step := by
  rw [run]
  split
  · next hstep => exact absurd (congrArg Prod.fst hstep) h
  · rfl

theorem run_one (machine : Machine) : machine.run 1 = machine.step := by
  by_cases h : machine.step.1 = .goesOn
  · rw [run_succ_of_goesOn h, run, ← h]
  · exact run_succ_of_halts h 0

theorem goesOn_run_succ_iff {machine : Machine} {limit : Nat} :
    (machine.run (limit + 1)).1 = .goesOn ↔
      machine.step.1 = .goesOn ∧ (machine.step.2.run limit).1 = .goesOn := by
  by_cases hstep : machine.step.1 = .goesOn
  · rw [run_succ_of_goesOn hstep, and_iff_right hstep]
  · rw [run_succ_of_halts hstep]
    exact iff_of_false hstep fun h => hstep h.1

theorem run_add_of_goesOn {machine : Machine} {limit : Nat} (h : (machine.run limit).1 = .goesOn)
    (more : Nat) : machine.run (limit + more) = (machine.run limit).2.run more := by
  induction limit generalizing machine with
  | zero => rw [Nat.zero_add, run]
  | succ limit ih =>
      obtain ⟨hstep, hrest⟩ := goesOn_run_succ_iff.1 h
      rw [Nat.add_right_comm, run_succ_of_goesOn hstep, run_succ_of_goesOn hstep, ih hrest]

theorem run_succ_eq_step {machine : Machine} {limit : Nat} (h : (machine.run limit).1 = .goesOn) :
    machine.run (limit + 1) = (machine.run limit).2.step := by
  rw [run_add_of_goesOn h, run_one]

theorem run_add_of_halts {machine : Machine} {limit : Nat} (h : (machine.run limit).1 ≠ .goesOn)
    (more : Nat) : machine.run (limit + more) = machine.run limit := by
  induction limit generalizing machine with
  | zero => exact absurd rfl h
  | succ limit ih =>
      rw [Nat.add_right_comm]
      by_cases hstep : machine.step.1 = .goesOn
      · rw [run_succ_of_goesOn hstep] at h ⊢
        rw [run_succ_of_goesOn hstep, ih h]
      · rw [run_succ_of_halts hstep, run_succ_of_halts hstep]

/-- A run that halted is no different under a greater limit. -/
theorem run_eq_of_le {machine : Machine} {limit greater : Nat}
    (h : (machine.run limit).1 ≠ .goesOn) (hle : limit ≤ greater) :
    machine.run greater = machine.run limit := by
  rw [← Nat.add_sub_cancel' hle, run_add_of_halts h]

theorem goesOn_of_le {machine : Machine} {limit greater : Nat}
    (h : (machine.run greater).1 = .goesOn) (hle : limit ≤ greater) :
    (machine.run limit).1 = .goesOn := by
  by_cases hhalts : (machine.run limit).1 = .goesOn
  · exact hhalts
  · rwa [run_eq_of_le hhalts hle] at h

theorem steps_run_of_goesOn {machine : Machine} {limit : Nat}
    (h : (machine.run limit).1 = .goesOn) :
    (machine.run limit).2.steps = machine.steps + limit := by
  induction limit generalizing machine with
  | zero => rfl
  | succ limit ih =>
      obtain ⟨hstep, hrest⟩ := goesOn_run_succ_iff.1 h
      have hsteps := machine.step_cases.steps
      rw [hstep] at hsteps
      rw [run_succ_of_goesOn hstep, ih hrest, hsteps, Step.applied, Bool.toNat_true,
        Nat.add_assoc, Nat.add_comm 1]

theorem isHalted_run_of_halts {machine : Machine} {limit : Nat}
    (h : (machine.run limit).1 ≠ .goesOn) : (machine.run limit).2.isHalted = true := by
  induction limit generalizing machine with
  | zero => exact absurd rfl h
  | succ limit ih =>
      by_cases hstep : machine.step.1 = .goesOn
      · rw [run_succ_of_goesOn hstep] at h ⊢
        exact ih h
      · rw [run_succ_of_halts hstep, ← Bool.not_eq_false, machine.step_cases.isHalted_eq_false_iff]
        exact hstep

theorem isHalted_run_of_goesOn {machine : Machine} {limit : Nat} (hrunning : machine.isHalted = false)
    (h : (machine.run limit).1 = .goesOn) : (machine.run limit).2.isHalted = false := by
  induction limit generalizing machine with
  | zero => exact hrunning
  | succ limit ih =>
      obtain ⟨hstep, hrest⟩ := goesOn_run_succ_iff.1 h
      rw [run_succ_of_goesOn hstep]
      exact ih (machine.step_cases.isHalted_eq_false_iff.2 hstep) hrest

/-! What a run that went on leaves in the journal. -/

theorem StepCase.events_of_goesOn {machine : Machine} {result : Step × Machine}
    (h : StepCase machine result) (hgoesOn : result.1 = .goesOn) :
    ∃ entry : Situation × Action, result.2.journal.events.toList =
      machine.journal.events.toList ++ [.applied entry.1 entry.2] := by
  cases h with
  | halted => cases hgoesOn
  | rejects => cases hgoesOn
  | accepts => cases hgoesOn
  | @moves action => exact ⟨(machine.situation, action), Array.toList_push⟩

theorem events_run_of_goesOn {machine : Machine} {limit : Nat}
    (h : (machine.run limit).1 = .goesOn) :
    ∃ applied : List (Situation × Action), applied.length = limit ∧
      (machine.run limit).2.journal.events.toList =
        machine.journal.events.toList ++ applied.map fun entry => .applied entry.1 entry.2 := by
  induction limit generalizing machine with
  | zero => exact ⟨[], rfl, (List.append_nil _).symm⟩
  | succ limit ih =>
      obtain ⟨hstep, hrest⟩ := goesOn_run_succ_iff.1 h
      obtain ⟨entry, hentry⟩ := machine.step_cases.events_of_goesOn hstep
      obtain ⟨later, hlength, hevents⟩ := ih hrest
      refine ⟨entry :: later, congrArg (· + 1) hlength, ?_⟩
      rw [run_succ_of_goesOn hstep, hevents, hentry, List.append_assoc, List.map_cons,
        List.singleton_append]

/-! Runs of a machine that had halted. -/

theorem step_of_isHalted {machine : Machine} (h : machine.isHalted = true) :
    machine.step = (.halts .alreadyHalted, machine.record .alreadyHalted) :=
  (StepCase.halted h).eq_step.symm

theorem run_succ_of_isHalted {machine : Machine} (h : machine.isHalted = true) (limit : Nat) :
    machine.run (limit + 1) = (.halts .alreadyHalted, machine.record .alreadyHalted) := by
  have hstep := step_of_isHalted h
  have hhalts : machine.step.1 ≠ .goesOn := by
    rw [hstep]
    nofun
  rw [run_succ_of_halts hhalts, hstep]

/-- A run that went on has applied an action in each of its steps and done nothing else, and a second
run takes it to where a single one with both limits leads. A run that halted is what any greater
limit gives, and running on adds one event to the journal and changes nothing, as it does for every
machine that had halted. -/
theorem run_add (machine : Machine) (first more : Nat) :
    ((machine.run first).1 = .goesOn →
      (∃ applied : List (Situation × Action), applied.length = first ∧
        (machine.run first).2.journal.events.toList =
          machine.journal.events.toList ++ applied.map fun entry => .applied entry.1 entry.2) ∧
      (machine.run first).2.steps = machine.steps + first ∧
      machine.run (first + more) = (machine.run first).2.run more) ∧
    (∀ halt, (machine.run first).1 = .halts halt →
      machine.run (first + more) = machine.run first ∧
      (machine.run first).2.run (more + 1) =
        (.halts .alreadyHalted, (machine.run first).2.record .alreadyHalted)) ∧
    (machine.isHalted = true →
      machine.run (more + 1) = (.halts .alreadyHalted, machine.record .alreadyHalted)) := by
  refine ⟨fun hgoesOn => ?_, fun halt hhalts => ?_, fun hhalted => ?_⟩
  · exact ⟨events_run_of_goesOn hgoesOn, steps_run_of_goesOn hgoesOn,
      run_add_of_goesOn hgoesOn more⟩
  · have hnot : (machine.run first).1 ≠ .goesOn := by
      rw [hhalts]
      nofun
    exact ⟨run_add_of_halts hnot more, run_succ_of_isHalted (isHalted_run_of_halts hnot) more⟩
  · exact run_succ_of_isHalted hhalted more

end TapeMachine.Machine
