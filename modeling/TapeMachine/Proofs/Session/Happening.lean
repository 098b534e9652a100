import TapeMachine.Proofs.Machine.Step
import TapeMachine.Proofs.Preset.Sheets
import TapeMachine.Session.Basic

/-!
What happens to a session: its user gives a command, or time goes by. Each of the two leaves a
session of which everything but the message is said here, so that statements about sessions need
not open the operations.
-/

namespace TapeMachine

inductive Happening where
  | command (command : Command)
  | elapse (time : Nat)
deriving DecidableEq

namespace Session

def meet (session : Session) : Happening → Session
  | .command command => session.perform command
  | .elapse time => session.elapse time

def meetAll (session : Session) (happenings : List Happening) : Session :=
  happenings.foldl meet session

/-- The session has just begun, on the built-in machines or on a source. -/
inductive Opened (session : Session) : Prop where
  | ofPresets (h : Session.ofPresets = .ok session)
  | ofSource {source : String} (h : Session.ofSource source = .ok session)

theorem meetAll_induction {Holds : Session → Prop}
    (hmeet : ∀ session happening, Holds session → Holds (session.meet happening))
    {start : Session} (hstart : Holds start) (happenings : List Happening) :
    Holds (start.meetAll happenings) := by
  induction happenings generalizing start with
  | nil => exact hstart
  | cons happening happenings ih => exact ih (hmeet start happening hstart)

/-! How sessions begin. -/

theorem begin_eq_ok {definition : Definition} {source message : String} {isCustom : Bool}
    {session : Session} : begin definition source message isCustom = .ok session ↔
      ∃ table, (Source.readTable definition.rules).table = .ok table ∧
        ⟨Machine.new.setUp definition table, definition, source, 0, none, 0, message, false,
          isCustom⟩ = session := by
  simp only [begin, bind_eq_ok, mapError_eq_ok, pure_eq_ok, Machine.load_eq_ok_iff]
  constructor
  · rintro ⟨machine, ⟨table, htable, rfl⟩, hsession⟩
    exact ⟨table, htable, hsession⟩
  · rintro ⟨table, htable, hsession⟩
    exact ⟨_, ⟨table, htable, rfl⟩, hsession⟩

theorem ofPresets_eq_ok {session : Session} : ofPresets = .ok session ↔
    ∃ preset, Preset.atIndex 0 = .ok preset ∧
      begin preset.definition preset.source "Press 'h' for help." false = .ok session := by
  simp only [ofPresets, bind_eq_ok, mapError_eq_ok]

theorem ofSource_eq_ok {source : String} {session : Session} : ofSource source = .ok session ↔
    ∃ definition, Definition.ofText source = .ok definition ∧
      begin definition source "Definition loaded from source. Press 'h' for help." true =
        .ok session := by
  simp only [ofSource, bind_eq_ok, mapError_eq_ok]

/-- A session begins with a machine that was set up for its definition, and without a run. -/
theorem Opened.exists_eq {session : Session} (h : session.Opened) :
    ∃ table definition source message isCustom,
      (Source.readTable definition.rules).table = .ok table ∧
        session = ⟨Machine.new.setUp definition table, definition, source, 0, none, 0, message,
          false, isCustom⟩ := by
  cases h with
  | ofPresets h =>
      obtain ⟨preset, -, hbegin⟩ := ofPresets_eq_ok.1 h
      obtain ⟨table, htable, hsession⟩ := begin_eq_ok.1 hbegin
      exact ⟨table, _, _, _, _, htable, hsession.symm⟩
  | ofSource h =>
      obtain ⟨definition, -, hbegin⟩ := ofSource_eq_ok.1 h
      obtain ⟨table, htable, hsession⟩ := begin_eq_ok.1 hbegin
      exact ⟨table, _, _, _, _, htable, hsession.symm⟩

/-! What each happening does. -/

section Operations

variable (session : Session)

theorem step_eq : session.step =
    { session with
      machine := session.machine.step.2
      run := if session.machine.step.2.isHalted then none else session.run
      scroll := 0
      message := session.step.message } := by
  rw [step]
  cases session.machine.step.2.isHalted <;> simp

theorem toggleRun_eq : session.toggleRun =
    { session with
      run := if session.run.isSome || session.machine.isHalted then none else some newRun
      message := session.toggleRun.message } := by
  rw [toggleRun]
  cases session.run <;> cases session.machine.isHalted <;> simp

variable {session}

theorem elapse_of_none (h : session.run = none) (time : Nat) : session.elapse time = session := by
  rw [elapse, h]

theorem elapse_of_some {run : AutoRun} (h : session.run = some run) (time : Nat) :
    session.elapse time =
      let progress := run.advance tokens session.machine time
      { session with
        machine := progress.machine
        run := if progress.run.isActive tokens then some progress.run else none
        scroll := if progress.applied = 0 then session.scroll else 0
        message := (session.elapse time).message } := by
  rw [elapse, h]
  cases hactive : (run.advance tokens session.machine time).run.isActive tokens <;>
    by_cases happlied : (run.advance tokens session.machine time).applied = 0 <;>
      simp [hactive, happlied]

theorem restart_of_readTable {table : Table}
    (h : (Source.readTable session.definition.rules).table = .ok table) :
    session.restart =
      { session with
        machine := session.machine.setUp session.definition table
        run := none
        scroll := 0
        message := "Initialized " ++ session.definition.displayName } := by
  rw [restart, Machine.load_eq_ok_iff.2 ⟨table, h, rfl⟩]

theorem turn_of_isCustom (h : session.isCustom = true) (places : Nat) : session.turn places =
    { session with message := "Cannot switch machines when loaded from file/stdin." } := by
  rw [turn, if_pos h]

-- An equation of functions: comparing the sessions would have the kernel read the presets.
theorem choose_eq : choose = fun session index =>
    match Preset.atIndex index with
    | .ok preset =>
        restart { session with
          preset := index, definition := preset.definition, source := preset.source,
          machine := .new }
    | .error fault => { session with preset := index, message := (Fault.invalid fault).message } := by
  delta choose
  funext session index
  generalize Preset.atIndex index = found
  cases found <;> rfl

/-- Turning finds a preset and sets up a new machine for it. -/
theorem exists_turn (h : session.isCustom = false) (places : Nat) :
    ∃ preset table,
      Preset.atIndex ((session.preset + places) % Preset.all.length) = .ok preset ∧
      (Source.readTable preset.definition.rules).table = .ok table ∧
      session.turn places =
        { session with
          machine := Machine.new.setUp preset.definition table
          definition := preset.definition
          source := preset.source
          preset := (session.preset + places) % Preset.all.length
          run := none
          scroll := 0
          message := "Initialized " ++ preset.definition.displayName } := by
  have hlt := Nat.mod_lt (session.preset + places) Preset.length_all_pos
  obtain ⟨preset, hmem, hpreset⟩ := Preset.exists_atIndex hlt
  obtain ⟨table, htable⟩ := Preset.exists_readTable hmem
  have hturn : session.turn places =
      session.choose ((session.preset + places) % Preset.all.length) := by
    rw [turn, h, if_neg Bool.false_ne_true]
  refine ⟨preset, table, hpreset, htable, ?_⟩
  simp only [hturn, choose_eq, hpreset]
  exact restart_of_readTable htable

end Operations

end Session

end TapeMachine
