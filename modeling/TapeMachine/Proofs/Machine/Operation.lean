import TapeMachine.Proofs.Machine.Step

/-!
What can be done with a machine: loading, stepping, running and resetting. A run is made of steps
and a failed load changes nothing, so what loading, stepping and resetting keep is kept by all.
-/

namespace TapeMachine

inductive Operation where
  | load (definition : Definition)
  | step
  | run (limit : Nat)
  | reset
deriving DecidableEq

namespace Machine

def perform (machine : Machine) : Operation → Machine
  | .load definition =>
      match machine.load definition with
      | .error _ => machine
      | .ok loaded => loaded
  | .step => machine.step.2
  | .run limit => (machine.run limit).2
  | .reset => machine.reset

def performAll (machine : Machine) (operations : List Operation) : Machine :=
  operations.foldl perform machine

section Induction

variable {Holds : Machine → Prop} (hstep : ∀ machine, Holds machine → Holds machine.step.2)

include hstep

theorem run_induction {machine : Machine} (hmachine : Holds machine) (limit : Nat) :
    Holds (machine.run limit).2 := by
  induction limit generalizing machine with
  | zero => exact hmachine
  | succ limit ih =>
      have hnext := hstep machine hmachine
      rw [run]
      split
      · next hgoesOn =>
          rw [hgoesOn] at hnext
          exact ih hnext
      · exact hnext

theorem perform_induction {machine : Machine} {operation : Operation}
    (hload : ∀ definition table, operation = .load definition →
      (Source.readTable definition.rules).table = .ok table →
        Holds (machine.setUp definition table))
    (hreset : operation = .reset → Holds machine.reset) (hmachine : Holds machine) :
    Holds (machine.perform operation) := by
  cases operation with
  | load definition =>
      rw [perform]
      split
      · exact hmachine
      · next hloaded =>
          obtain ⟨table, htable, rfl⟩ := load_eq_ok_iff.1 hloaded
          exact hload definition table rfl htable
  | step => exact hstep machine hmachine
  | run limit => exact run_induction hstep hmachine limit
  | reset => exact hreset rfl

theorem performAll_induction
    (hload : ∀ machine definition table, (Source.readTable definition.rules).table = .ok table →
      Holds machine → Holds (machine.setUp definition table))
    (hreset : ∀ machine, Holds machine → Holds machine.reset)
    {machine : Machine} (hmachine : Holds machine) (operations : List Operation) :
    Holds (machine.performAll operations) := by
  induction operations generalizing machine with
  | nil => exact hmachine
  | cons operation operations ih =>
      apply ih
      apply perform_induction hstep
      · intro definition table _ htable
        exact hload machine definition table htable hmachine
      · intro _
        exact hreset machine hmachine
      · exact hmachine

end Induction

end Machine

end TapeMachine
