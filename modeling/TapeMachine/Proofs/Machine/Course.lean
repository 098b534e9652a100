import TapeMachine.Proofs.Machine.Replay
import TapeMachine.Proofs.Machine.Run
import TapeMachine.Proofs.Tape.Heading

/-!
Courses of a program: the scenes that its actions lead through, whatever machine applies them. A
program's course is put together from stretches, above all from scans, in which the head goes over
a word in one state. A machine with the program then runs that course, and halts at its end.
-/

namespace TapeMachine

namespace Scene

variable (state : String) (blank : Char) (ahead behind : List Char) (next : String) (symbol : Char)

theorem situation_heading (direction : Direction) :
    situation ⟨.heading blank ahead behind direction, state⟩ = ⟨state, ahead.head?.getD blank⟩ := by
  rw [situation, Tape.read_heading]

theorem apply_heading (direction : Direction) :
    apply ⟨.heading blank ahead behind direction, state⟩ ⟨next, symbol, direction⟩ =
      ⟨.heading blank ahead.tail (symbol :: behind) direction, next⟩ := by
  rw [apply, Tape.write_heading, Tape.shift_heading]

theorem apply_heading_of_ne {direction other : Direction} (h : other ≠ direction) :
    apply ⟨.heading blank ahead behind direction, state⟩ ⟨next, symbol, other⟩ =
      ⟨.heading blank behind (symbol :: ahead.tail) other, next⟩ := by
  rw [apply, Tape.write_heading, Tape.shift_heading_of_ne _ _ _ _ h]

end Scene

namespace Program

/-- So many actions lead from the one scene to the other, none of them into a final state. -/
inductive Leads (program : Program) : Nat → Scene → Scene → Prop where
  | refl (scene : Scene) : Leads program 0 scene scene
  | step {count : Nat} {first last : Scene} {action : Action}
      (hfind : program.table.find? first.situation = some action)
      (hfinal : action.next ∉ program.finals) (hlater : Leads program count (first.apply action) last) :
      Leads program (count + 1) first last

/-- The attempt in the first scene is the last one. It ends so and leaves the second scene. -/
inductive Ends (program : Program) : Halt → Scene → Scene → Prop where
  | accepts {scene : Scene} {action : Action}
      (hfind : program.table.find? scene.situation = some action)
      (hfinal : action.next ∈ program.finals) : Ends program .accepted scene (scene.apply action)
  | rejects {scene : Scene} (hnone : program.table.find? scene.situation = none) :
      Ends program .rejected scene scene

/-- The head goes over a word in one direction. The program takes it from the one state to the other
through states that are not final, and leaves the second word in place of the first. -/
inductive Scans (program : Program) (direction : Direction) :
    String → List Char → String → List Char → Prop where
  | nil (state : String) : Scans program direction state [] state []
  | cons {state next last : String} {symbol written : Char} {word output : List Char}
      (hfind : program.table.find? ⟨state, symbol⟩ = some ⟨next, written, direction⟩)
      (hfinal : next ∉ program.finals) (hlater : Scans program direction next word last output) :
      Scans program direction state (symbol :: word) last (written :: output)

variable {program : Program}

theorem Scans.append {direction : Direction} {first middle last : String}
    {word more output later : List Char} (h : program.Scans direction first word middle output)
    (hlater : program.Scans direction middle more last later) :
    program.Scans direction first (word ++ more) last (output ++ later) := by
  induction h with
  | nil => exact hlater
  | cons hfind hfinal _ ih => exact .cons hfind hfinal (ih hlater)

theorem Leads.trans {count more : Nat} {first middle last : Scene}
    (h : program.Leads count first middle) (hlater : program.Leads more middle last) :
    program.Leads (count + more) first last := by
  induction h with
  | refl => rwa [Nat.zero_add]
  | step hfind hfinal _ ih =>
      rw [Nat.add_right_comm]
      exact .step hfind hfinal (ih hlater)

/-- So many actions lead to a scene in which the next attempt is the last one. -/
def Halts (program : Program) (count : Nat) (halt : Halt) (first last : Scene) : Prop :=
  ∃ scene, program.Leads count first scene ∧ program.Ends halt scene last

theorem Leads.halts {count more : Nat} {halt : Halt} {first middle last : Scene}
    (h : program.Leads count first middle) (hlater : program.Halts more halt middle last) :
    program.Halts (count + more) halt first last := by
  obtain ⟨scene, hleads, hends⟩ := hlater
  exact ⟨scene, h.trans hleads, hends⟩

section Heading

variable {state next : String} {blank found symbol : Char} {ahead : List Char}
  {direction : Direction}

/-- An action that keeps the head's direction. -/
theorem leads_onward
    (hfind : program.table.find? ⟨state, found⟩ = some ⟨next, symbol, direction⟩)
    (hfinal : next ∉ program.finals) (hfound : ahead.head?.getD blank = found)
    (behind : List Char) :
    program.Leads 1 ⟨.heading blank ahead behind direction, state⟩
      ⟨.heading blank ahead.tail (symbol :: behind) direction, next⟩ := by
  rw [← hfound, ← Scene.situation_heading state blank ahead behind direction] at hfind
  rw [← Scene.apply_heading state]
  exact .step hfind hfinal (.refl _)

/-- An action that turns the head around. -/
theorem leads_about {other : Direction}
    (hfind : program.table.find? ⟨state, found⟩ = some ⟨next, symbol, other⟩)
    (hfinal : next ∉ program.finals) (hfound : ahead.head?.getD blank = found)
    (hne : other ≠ direction) (behind : List Char) :
    program.Leads 1 ⟨.heading blank ahead behind direction, state⟩
      ⟨.heading blank behind (symbol :: ahead.tail) other, next⟩ := by
  rw [← hfound, ← Scene.situation_heading state blank ahead behind direction] at hfind
  rw [← Scene.apply_heading_of_ne state blank ahead behind next symbol hne]
  exact .step hfind hfinal (.refl _)

theorem Scans.leads {word output : List Char} {last : String}
    (h : program.Scans direction state word last output) (blank : Char) (ahead behind : List Char) :
    program.Leads word.length ⟨.heading blank (word ++ ahead) behind direction, state⟩
      ⟨.heading blank ahead (output.reverse ++ behind) direction, last⟩ := by
  induction h generalizing behind with
  | nil => exact .refl _
  | @cons state next last symbol written word output hfind hfinal _ ih =>
      have hstep : program.Leads 1 ⟨.heading blank (symbol :: word ++ ahead) behind direction, state⟩
          ⟨.heading blank (word ++ ahead) (written :: behind) direction, next⟩ :=
        leads_onward hfind hfinal rfl behind
      have hscan := hstep.trans (ih (written :: behind))
      rw [List.length_cons, List.reverse_cons, List.append_assoc, List.singleton_append,
        Nat.add_comm]
      exact hscan

/-- In a state that it keeps to, the head goes over a word and rewrites each of its symbols. -/
theorem leads_scan {rewritten : Char → Char} {word : List Char}
    (hfind : ∀ c ∈ word, program.table.find? ⟨state, c⟩ = some ⟨state, rewritten c, direction⟩)
    (hfinal : state ∉ program.finals) (blank : Char) (ahead behind : List Char) :
    program.Leads word.length ⟨.heading blank (word ++ ahead) behind direction, state⟩
      ⟨.heading blank ahead ((word.map rewritten).reverse ++ behind) direction, state⟩ := by
  have hscans : program.Scans direction state word state (word.map rewritten) := by
    induction word with
    | nil => exact .nil state
    | cons c word ih =>
        obtain ⟨hfirst, hrest⟩ := List.forall_mem_cons.1 hfind
        exact .cons hfirst hfinal (ih hrest)
  exact hscans.leads blank ahead behind

/-- An action into a final state ends the course. -/
theorem halts_onward (hfind : program.table.find? ⟨state, found⟩ = some ⟨next, symbol, direction⟩)
    (hfinal : next ∈ program.finals) (hfound : ahead.head?.getD blank = found)
    (behind : List Char) :
    program.Halts 0 .accepted ⟨.heading blank ahead behind direction, state⟩
      ⟨.heading blank ahead.tail (symbol :: behind) direction, next⟩ := by
  rw [← hfound, ← Scene.situation_heading state blank ahead behind direction] at hfind
  rw [← Scene.apply_heading state]
  exact ⟨_, .refl _, .accepts hfind hfinal⟩

theorem halts_about {other : Direction}
    (hfind : program.table.find? ⟨state, found⟩ = some ⟨next, symbol, other⟩)
    (hfinal : next ∈ program.finals) (hfound : ahead.head?.getD blank = found)
    (hne : other ≠ direction) (behind : List Char) :
    program.Halts 0 .accepted ⟨.heading blank ahead behind direction, state⟩
      ⟨.heading blank behind (symbol :: ahead.tail) other, next⟩ := by
  rw [← hfound, ← Scene.situation_heading state blank ahead behind direction] at hfind
  rw [← Scene.apply_heading_of_ne state blank ahead behind next symbol hne]
  exact ⟨_, .refl _, .accepts hfind hfinal⟩

/-- Without a rule for it the course ends where it is. -/
theorem halts_rejected (hfind : program.table.find? ⟨state, found⟩ = none)
    (hfound : ahead.head?.getD blank = found) (behind : List Char) (direction : Direction) :
    program.Halts 0 .rejected ⟨.heading blank ahead behind direction, state⟩
      ⟨.heading blank ahead behind direction, state⟩ := by
  rw [← hfound, ← Scene.situation_heading state blank ahead behind direction] at hfind
  exact ⟨_, .refl _, .rejects hfind⟩

end Heading

end Program

namespace Machine

variable {machine : Machine} {count : Nat} {last : Scene} {halt : Halt}

/-- A machine runs the course of its program. -/
theorem run_of_leads (hrunning : machine.isHalted = false)
    (h : machine.program.Leads count machine.scene last) :
    (machine.run count).1 = .goesOn ∧ (machine.run count).2.scene = last := by
  generalize hprogram : machine.program = program at h
  generalize hscene : machine.scene = first at h
  induction h generalizing machine with
  | refl => exact ⟨rfl, hscene⟩
  | step hfind hfinal _ ih =>
      subst hprogram hscene
      have hstep := (StepCase.moves hrunning hfind hfinal).eq_step
      have hnext := @ih machine.step.2 (by rw [← hstep]; exact hrunning)
        (by rw [← hstep]; rfl) (by rw [← hstep]; rfl)
      rwa [run_succ_of_goesOn (by rw [← hstep])]

theorem program_run (machine : Machine) (limit : Nat) :
    (machine.run limit).2.program = machine.program := by
  have hkept (other : Machine) (hother : other.program = machine.program) :=
    (step_cases other).program.trans hother
  exact run_induction hkept rfl limit

theorem isHalted_of_accepted (h : machine.status = .accepted) :
    machine.isHalted = true := by
  rw [isHalted_eq_status, h]
  rfl

/-- The machine goes on for so many steps. The next one halts it so and leaves the scene. -/
structure HaltsAfter (machine : Machine) (count : Nat) (halt : Halt) (last : Scene) : Prop where
  goesOn : (machine.run count).1 = .goesOn
  halts : (machine.run (count + 1)).1 = .halts halt
  outcome : (machine.run (count + 1)).2.outcome = some halt
  scene : (machine.run (count + 1)).2.scene = last

theorem haltsAfter_of_halts (hrunning : machine.isHalted = false)
    (h : machine.program.Halts count halt machine.scene last) :
    machine.HaltsAfter count halt last := by
  obtain ⟨scene, hleads, hends⟩ := h
  obtain ⟨hgoesOn, hscene⟩ := run_of_leads hrunning hleads
  have hlast := run_succ_eq_step hgoesOn
  have hunhalted := isHalted_run_of_goesOn hrunning hgoesOn
  rw [← machine.program_run count, ← hscene] at hends
  cases hends with
  | accepts hfind hfinal =>
      have hstep := (StepCase.accepts hunhalted hfind hfinal).eq_step
      rw [← hstep] at hlast
      exact ⟨hgoesOn, by rw [hlast], by rw [hlast]; rfl, by rw [hlast]; rfl⟩
  | rejects hnone =>
      have hstep := (StepCase.rejects hunhalted hnone).eq_step
      rw [← hstep] at hlast
      exact ⟨hgoesOn, by rw [hlast], by rw [hlast]; rfl, by rw [hlast]; rfl⟩

/-- A machine that was set up for a definition runs the course from the input on. -/
theorem haltsAfter_setUp (machine : Machine) (definition : Definition) (table : Table)
    (h : Program.Halts ⟨definition.initial, .ofList definition.finals, table⟩ count halt
      ⟨.heading (definition.blank.getD defaultBlank) definition.input.toList [] .right,
        definition.initial⟩ last) :
    (machine.setUp definition table).HaltsAfter count halt last := by
  rw [← Tape.ofInput_eq_heading] at h
  exact haltsAfter_of_halts rfl h

namespace HaltsAfter

section Run

variable (h : machine.HaltsAfter count halt last)

include h

theorem run_eq {limit : Nat} (hle : count + 1 ≤ limit) :
    machine.run limit = machine.run (count + 1) :=
  run_eq_of_le (by rw [h.halts]; nofun) hle

theorem le_of_isHalted (hrunning : machine.isHalted = false) {limit : Nat}
    (hhalted : (machine.run limit).2.isHalted = true) : count + 1 ≤ limit := by
  by_contra hnot
  have hgoesOn := goesOn_of_le h.goesOn (Nat.le_of_lt_succ (Nat.not_le.1 hnot))
  rw [isHalted_run_of_goesOn hrunning hgoesOn] at hhalted
  cases hhalted

theorem isHalted_run {limit : Nat} (hle : count + 1 ≤ limit) :
    (machine.run limit).2.isHalted = true := by
  rw [h.run_eq hle, isHalted, h.outcome, Option.isSome_some]

theorem halts_run {limit : Nat} (hle : count + 1 ≤ limit) :
    (machine.run limit).1 = .halts halt := by
  rw [h.run_eq hle, h.halts]

theorem scene_run {limit : Nat} (hle : count + 1 ≤ limit) : (machine.run limit).2.scene = last := by
  rw [h.run_eq hle, h.scene]

theorem steps_run {limit : Nat} (hle : count + 1 ≤ limit) : (machine.run limit).2.steps =
    machine.steps + count + (Step.halts halt).applied.toNat := by
  have hlast := run_succ_eq_step h.goesOn
  have hhalts := h.halts
  rw [h.run_eq hle, hlast]
  rw [hlast] at hhalts
  rw [(step_cases _).steps, steps_run_of_goesOn h.goesOn, hhalts]

end Run

theorem accepted_run (h : machine.HaltsAfter count .accepted last) {limit : Nat}
    (hle : count + 1 ≤ limit) : (machine.run limit).2.status = .accepted := by
  rw [h.run_eq hle, status, h.outcome]

theorem rejected_run (h : machine.HaltsAfter count .rejected last) {limit : Nat}
    (hle : count + 1 ≤ limit) : (machine.run limit).2.status = .rejected := by
  rw [h.run_eq hle, status, h.outcome]

end HaltsAfter

end Machine

end TapeMachine
