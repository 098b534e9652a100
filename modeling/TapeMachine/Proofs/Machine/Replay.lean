import TapeMachine.Proofs.Machine.Operation
import TapeMachine.Proofs.Tape.View
import Mathlib.Data.List.DropRight

/-!
The journal as a record of the run. From the last start or reset on it holds the applied actions in
their order, then what halted the machine, then the calls that found it halted. The actions, applied
again from where the record begins, lead to the machine's tape and state, and each of them was
recorded for the situation that it meets there.
-/

namespace TapeMachine

/-- Whether a record begins with the event. -/
def Event.opens : Event → Bool
  | started _ _ _ | reset => true
  | applied _ _ | noRule _ | accepted _ | alreadyHalted => false

theorem Event.opens_applied (situation : Situation) (action : Action) :
    (applied situation action).opens = false :=
  rfl

theorem Event.opens_alreadyHalted : alreadyHalted.opens = false :=
  rfl

namespace Journal

/-- The last start or reset, if there was one. -/
def opening? (journal : Journal) : Option Event :=
  journal.events.toList.reverse.find? Event.opens

/-- The events after the last start or reset, or all of them. -/
def sinceOpening (journal : Journal) : List Event :=
  journal.events.toList.rtakeWhile (!·.opens)

section Record

variable {event : Event} (journal : Journal)

theorem opening?_record_of_opens (h : event.opens = true) :
    (journal.record event).opening? = some event := by
  simp [record, opening?, h]

theorem sinceOpening_record_of_opens (h : event.opens = true) :
    (journal.record event).sinceOpening = [] := by
  simp [record, sinceOpening, h]

theorem opening?_record (h : event.opens = false) :
    (journal.record event).opening? = journal.opening? := by
  simp [record, opening?, h]

theorem sinceOpening_record (h : event.opens = false) :
    (journal.record event).sinceOpening = journal.sinceOpening ++ [event] := by
  simp [record, sinceOpening, h]

end Record

end Journal

/-- What actions change. -/
structure Scene where
  tape : Tape
  state : String
deriving DecidableEq

namespace Scene

/-- Where a record begins: at the input and the state of a start, and else on an empty tape. -/
def ofOpening (blank : Char) : Option Event → Scene
  | some (.started input initial _) => ⟨.ofInput input blank, initial⟩
  | _ => ⟨.empty blank, ""⟩

def situation (scene : Scene) : Situation :=
  ⟨scene.state, scene.tape.read⟩

/-- Writes, changes the state and moves the head. -/
def apply (scene : Scene) (action : Action) : Scene :=
  ⟨(scene.tape.write action.write).shift action.direction, action.next⟩

/-- Applies recorded actions again, as long as each was recorded for the situation it meets. -/
def replay? (scene : Scene) : List (Situation × Action) → Option Scene
  | [] => some scene
  | (situation, action) :: later =>
      if situation = scene.situation then (scene.apply action).replay? later else none

theorem replay?_concat {scene last : Scene} {applied : List (Situation × Action)}
    (h : scene.replay? applied = some last) (action : Action) :
    scene.replay? (applied ++ [(last.situation, action)]) = some (last.apply action) := by
  induction applied generalizing scene with
  | nil =>
      cases h
      rw [List.nil_append, replay?, if_pos rfl, replay?]
  | cons entry applied ih =>
      obtain ⟨situation, next⟩ := entry
      rw [replay?] at h
      split at h
      · next hsituation => rw [List.cons_append, replay?, if_pos hsituation, ih h]
      · contradiction

end Scene

namespace Machine

def scene (machine : Machine) : Scene :=
  ⟨machine.tape, machine.state⟩

/-- The event that tells how the machine halted, once it did. -/
def haltEvents (machine : Machine) : List Event :=
  match machine.status with
  | .idle | .running => []
  | .accepted => [.accepted machine.state]
  | .rejected => [.noRule machine.situation]

/-- The journal holds these actions since its last start or reset, how the machine halted if it did,
and so many calls after that. The actions lead to where the machine stands. -/
structure Recorded (machine : Machine) (applied : List (Situation × Action)) (later : Nat) :
    Prop where
  events : machine.journal.sinceOpening =
    applied.map (fun entry => .applied entry.1 entry.2) ++ machine.haltEvents ++
      List.replicate later .alreadyHalted
  steps : applied.length = machine.steps
  later : machine.status.isHalted = false → later = 0
  replay : (Scene.ofOpening machine.tape.blank machine.journal.opening?).replay? applied =
    some machine.scene

theorem recorded_new : new.Recorded [] 0 :=
  ⟨rfl, rfl, fun _ => rfl, rfl⟩

theorem recorded_reset (machine : Machine) : machine.reset.Recorded [] 0 :=
  ⟨rfl, rfl, fun _ => rfl, rfl⟩

theorem recorded_setUp (machine : Machine) (definition : Definition) (table : Table) :
    (machine.setUp definition table).Recorded [] 0 where
  events := machine.journal.sinceOpening_record_of_opens rfl
  steps := rfl
  later _ := rfl
  replay := by
    have hopening : (machine.setUp definition table).journal.opening? = some (.started _ _ _) :=
      machine.journal.opening?_record_of_opens rfl
    rw [hopening]
    rfl

theorem haltEvents_of_not_halted {machine : Machine} (h : machine.isHalted = false) :
    machine.haltEvents = [] := by
  rw [isHalted_eq_status] at h
  unfold haltEvents
  cases hstatus : machine.status <;> simp_all [Status.isHalted]

namespace Recorded

variable {machine : Machine} {applied : List (Situation × Action)} {later : Nat}

theorem events_of_not_halted (h : machine.Recorded applied later)
    (hrunning : machine.isHalted = false) : machine.journal.sinceOpening =
      applied.map (fun entry => .applied entry.1 entry.2) := by
  have hlater := h.later (by rwa [← isHalted_eq_status])
  rw [h.events, haltEvents_of_not_halted hrunning, hlater]
  simp

/-- A halted machine stays as it was but for one more event. -/
theorem halted (h : machine.Recorded applied later) (hhalted : machine.isHalted = true) :
    (machine.record .alreadyHalted).Recorded applied (later + 1) where
  events := by
    have hjournal := machine.journal.sinceOpening_record Event.opens_alreadyHalted
    rw [h.events] at hjournal
    rw [List.replicate_succ', ← List.append_assoc]
    exact hjournal
  steps := h.steps
  later hrunning := by
    have hstatus : machine.status.isHalted = true := machine.isHalted_eq_status ▸ hhalted
    exact Bool.noConfusion (hstatus.symm.trans hrunning)
  replay := by
    have hopening := machine.journal.opening?_record Event.opens_alreadyHalted
    exact hopening ▸ h.replay

/-- Halting adds the event that tells how, and changes nothing that actions change. -/
theorem halts (h : machine.Recorded applied later) (hrunning : machine.isHalted = false)
    {outcome : Halt} {event : Event} (hopens : event.opens = false)
    (hevent : ((machine.halt outcome).record event).haltEvents = [event]) :
    ((machine.halt outcome).record event).Recorded applied 0 where
  events := by
    have hjournal := machine.journal.sinceOpening_record hopens
    rw [h.events_of_not_halted hrunning] at hjournal
    rw [hevent, List.replicate_zero, List.append_nil]
    exact hjournal
  steps := h.steps
  later _ := rfl
  replay := by
    have hopening := machine.journal.opening?_record hopens
    exact hopening ▸ h.replay

/-- An action is recorded for the situation it is applied in. -/
theorem moves (h : machine.Recorded applied later) (hrunning : machine.isHalted = false)
    (action : Action) : (machine.applyRule machine.situation action).Recorded
      (applied ++ [(machine.situation, action)]) 0 where
  events := by
    have hjournal := machine.journal.sinceOpening_record (Event.opens_applied machine.situation action)
    rw [h.events_of_not_halted hrunning] at hjournal
    have hnext : (machine.applyRule machine.situation action).isHalted = false := hrunning
    rw [haltEvents_of_not_halted hnext, List.replicate_zero, List.append_nil, List.append_nil,
      List.map_append]
    exact hjournal
  steps := by rw [List.length_append, List.length_singleton, h.steps]; rfl
  later _ := rfl
  replay := by
    have hopening := machine.journal.opening?_record (Event.opens_applied machine.situation action)
    have hblank : (machine.applyRule machine.situation action).tape.blank = machine.tape.blank :=
      machine.tape.blank_write action.write
    have hreplay := Scene.replay?_concat h.replay action
    rw [hblank]
    exact hopening ▸ hreplay

end Recorded

theorem StepCase.recorded {machine : Machine} {result : Step × Machine} (h : StepCase machine result)
    {applied : List (Situation × Action)} {later : Nat} (hmachine : machine.Recorded applied later) :
    ∃ applied later, result.2.Recorded applied later := by
  cases h with
  | halted hhalted => exact ⟨applied, later + 1, hmachine.halted hhalted⟩
  | rejects hrunning => exact ⟨applied, 0, hmachine.halts hrunning rfl rfl⟩
  | @accepts action hrunning =>
      exact ⟨_, 0, (hmachine.moves hrunning action).halts hrunning rfl rfl⟩
  | @moves action hrunning => exact ⟨_, 0, hmachine.moves hrunning action⟩

theorem recorded_performAll (operations : List Operation) :
    ∃ applied later, (new.performAll operations).Recorded applied later := by
  have hstep (machine : Machine) (h : ∃ applied later, machine.Recorded applied later) :
      ∃ applied later, machine.step.2.Recorded applied later := by
    obtain ⟨applied, later, hmachine⟩ := h
    exact (step_cases machine).recorded hmachine
  exact performAll_induction hstep
    (fun machine definition table _ _ => ⟨[], 0, recorded_setUp machine definition table⟩)
    (fun machine _ => ⟨[], 0, recorded_reset machine⟩) ⟨[], 0, recorded_new⟩ operations

/-- Since the last start or reset the journal holds the applied actions, as many as the machine
counts, then how it halted, then the calls after the halt. Applied again, each action meets the
situation it was recorded for, and the last one leaves the tape, the head and the state as they
are. -/
theorem journal_performAll (operations : List Operation) :
    let machine := new.performAll operations
    ∃ (applied : List (Situation × Action)) (later : Nat),
      machine.journal.sinceOpening =
          applied.map (fun entry => .applied entry.1 entry.2) ++ machine.haltEvents ++
            List.replicate later .alreadyHalted ∧
        applied.length = machine.steps ∧
        (machine.status.isHalted = false → later = 0) ∧
        (Scene.ofOpening machine.tape.blank machine.journal.opening?).replay? applied =
          some machine.scene := by
  obtain ⟨applied, later, hrecorded⟩ := recorded_performAll operations
  exact ⟨applied, later, hrecorded.events, hrecorded.steps, hrecorded.later, hrecorded.replay⟩

end Machine

end TapeMachine
