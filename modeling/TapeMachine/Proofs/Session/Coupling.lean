import TapeMachine.Proofs.AutoRun.Keeping
import TapeMachine.Proofs.Session.Happening
import TapeMachine.Session.View

/-!
What ties the parts of a session together. A run is stored only as long as it has steps to make on
the machine, and the journal is never scrolled back past its first event, although the machine may
be stepped beside the run, cleared under it, or exchanged.
-/

namespace TapeMachine

open Screen

namespace Machine

theorem size_journal_setUp_pos (machine : Machine) (definition : Definition) (table : Table) :
    0 < (machine.setUp definition table).journal.size := by
  have hsize : (machine.setUp definition table).journal.size = machine.journal.size + 1 :=
    Journal.size_record ..
  rw [hsize]
  exact Nat.succ_pos _

end Machine

/-- Whether the happening is one that works on the machine of a session. -/
def Happening.Works (session : Session) : Happening → Prop
  | .elapse _ | .command .step | .command .reset | .command .restart => True
  | .command .previousPreset | .command .nextPreset => session.isCustom = false
  | .command _ => False

namespace Session

structure IsCoupled (session : Session) : Prop where
  run : ∀ run ∈ session.run, run.isActive tokens = true ∧ session.machine.isHalted = false
  scroll : session.scroll < session.machine.journal.size

theorem isCoupled_of_none {session : Session} (hrun : session.run = none)
    (hscroll : session.scroll < session.machine.journal.size) : session.IsCoupled := by
  refine ⟨fun run hmem => ?_, hscroll⟩
  rw [hrun] at hmem
  cases hmem

theorem Opened.isCoupled {session : Session} (h : session.Opened) : session.IsCoupled := by
  obtain ⟨table, definition, source, message, isCustom, -, rfl⟩ := h.exists_eq
  exact isCoupled_of_none rfl (Machine.size_journal_setUp_pos ..)

namespace IsCoupled

variable {session : Session}

theorem step (h : session.IsCoupled) : session.step.IsCoupled := by
  have hgrows := session.machine.step_cases.size_journal_lt
  rw [step_eq]
  refine ⟨?_, Nat.lt_of_le_of_lt (Nat.zero_le _) hgrows⟩
  intro run hrun
  dsimp only at hrun ⊢
  split at hrun
  · cases hrun
  · next hrunning => exact ⟨(h.run run hrun).1, Bool.not_eq_true _ |>.mp hrunning⟩

theorem elapse (h : session.IsCoupled) (time : Nat) : (session.elapse time).IsCoupled := by
  cases hrun : session.run with
  | none => rwa [elapse_of_none hrun]
  | some run =>
      obtain ⟨-, hrunning⟩ := h.run run hrun
      have hgrows : session.machine.journal.size ≤
          (run.advance tokens session.machine time).machine.journal.size :=
        AutoRun.advance_induction
          (fun machine hle => Nat.le_trans hle machine.step_cases.size_journal_lt.le)
          (Nat.le_refl _) run tokens time
      have hscroll := Nat.lt_of_lt_of_le h.scroll hgrows
      rw [elapse_of_some hrun]
      dsimp only
      constructor
      · intro later hlater
        dsimp only at hlater
        split at hlater
        · next hactive =>
            cases hlater
            exact ⟨hactive, AutoRun.isHalted_advance_of_isActive hrunning hactive⟩
        · cases hlater
      · dsimp only
        split
        · exact hscroll
        · exact Nat.lt_of_le_of_lt (Nat.zero_le _) hscroll

theorem toggleRun (h : session.IsCoupled) : session.toggleRun.IsCoupled := by
  rw [toggleRun_eq]
  refine ⟨?_, h.scroll⟩
  intro run hrun
  dsimp only at hrun
  split at hrun
  · cases hrun
  · next hidle =>
      cases hrun
      rw [Bool.or_eq_true, not_or] at hidle
      exact ⟨by decide, Bool.not_eq_true _ |>.mp hidle.2⟩

theorem restart (h : session.IsCoupled) : session.restart.IsCoupled := by
  have hnonempty := Nat.lt_of_le_of_lt (Nat.zero_le _) h.scroll
  cases hload : session.machine.load session.definition with
  | ok machine =>
      obtain ⟨table, htable, rfl⟩ := Machine.load_eq_ok_iff.1 hload
      rw [restart_of_readTable htable]
      exact isCoupled_of_none rfl (Machine.size_journal_setUp_pos ..)
  | error error =>
      rw [Session.restart, hload]
      exact isCoupled_of_none rfl hnonempty

theorem turn (h : session.IsCoupled) (places : Nat) : (session.turn places).IsCoupled := by
  cases hcustom : session.isCustom with
  | true =>
      rw [turn_of_isCustom hcustom]
      exact ⟨h.run, h.scroll⟩
  | false =>
      obtain ⟨preset, table, -, -, hturn⟩ := exists_turn hcustom places
      rw [hturn]
      exact isCoupled_of_none rfl (Machine.size_journal_setUp_pos ..)

theorem scrollUp (h : session.IsCoupled) : session.scrollUp.IsCoupled := by
  have hscroll := h.scroll
  refine ⟨h.run, ?_⟩
  simp only [Session.scrollUp]
  omega

theorem scrollDown (h : session.IsCoupled) : session.scrollDown.IsCoupled :=
  ⟨h.run, Nat.lt_of_le_of_lt (Nat.sub_le _ _) h.scroll⟩

theorem meet (h : session.IsCoupled) (happening : Happening) :
    (session.meet happening).IsCoupled := by
  cases happening with
  | elapse time => exact h.elapse time
  | command command =>
      cases command with
      | quit => exact h
      | reset => exact isCoupled_of_none rfl Nat.one_pos
      | restart => exact h.restart
      | step => exact h.step
      | toggleRun => exact h.toggleRun
      | toggleHelp => exact ⟨h.run, h.scroll⟩
      | previousPreset => exact h.turn _
      | nextPreset => exact h.turn _
      | scrollUp => exact h.scrollUp
      | scrollDown => exact h.scrollDown

end IsCoupled

/-- What is shown of the journal ends where it is scrolled back to. -/
theorem exists_logLines {session : Session} (h : session.scroll ≤ session.machine.journal.size)
    (height : Nat) : ∃ earlier shown later : List Event,
      session.machine.journal.events.toList = earlier ++ (shown ++ later) ∧
        later.length = session.scroll ∧
        shown.length = min height (session.machine.journal.size - session.scroll) ∧
        session.logLines height = shown.map fun event => plain event.line := by
  rw [logLines]
  rw [Journal.size] at h ⊢
  obtain ⟨last, hlast⟩ : ∃ last, last = session.machine.journal.events.size - session.scroll :=
    ⟨_, rfl⟩
  rw [← hlast]
  rw [← Array.length_toList] at h hlast
  rw [Array.toList_extract]
  generalize session.machine.journal.events.toList = events at h hlast ⊢
  refine ⟨events.take (last - height), events.extract (last - height) last, events.drop last,
    ?_, ?_, ?_, ?_⟩
  · have hdrop : events.drop last =
        (events.drop (last - height)).drop (last - (last - height)) := by
      rw [List.drop_drop, Nat.add_sub_cancel' (Nat.sub_le last height)]
    rw [List.extract, hdrop, List.take_append_drop, List.take_append_drop]
  · rw [List.length_drop]
    omega
  · rw [List.extract, List.length_take, List.length_drop]
    omega
  · rw [List.map_map]
    rfl

theorem machine_meet_of_not_works {session : Session} {happening : Happening}
    (h : ¬ happening.Works session) : (session.meet happening).machine = session.machine := by
  cases happening with
  | elapse time => exact absurd trivial h
  | command command =>
      have hturn (places : Nat) (hcustom : ¬ session.isCustom = false) :
          (session.turn places).machine = session.machine := by
        rw [turn_of_isCustom (Bool.not_eq_false _ |>.mp hcustom)]
      cases command with
      | reset | restart | step => exact absurd trivial h
      | previousPreset | nextPreset => exact hturn _ h
      | toggleRun =>
          rw [meet, perform, toggleRun_eq]
      | quit | toggleHelp | scrollUp | scrollDown => rfl

/-- Whatever happens to a session, a run that is stored is active and its machine not halted, so
that the session is running exactly when a run is stored. The journal has an event at least that is
not scrolled past, and those shown are the last of them before the scrolled ones. What does not work
on the machine leaves it as it is. -/
theorem coupled_meetAll {start : Session} (h : start.Opened) (happenings : List Happening) :
    let session := start.meetAll happenings
    (∀ run ∈ session.run, run.isActive tokens = true ∧ session.machine.isHalted = false) ∧
    (session.isRunning = true ↔ session.run.isSome = true) ∧
    0 < session.machine.journal.size ∧
    session.scroll ≤ session.machine.journal.size - 1 ∧
    (∀ height, ∃ earlier shown later : List Event,
      session.machine.journal.events.toList = earlier ++ (shown ++ later) ∧
        later.length = session.scroll ∧
        shown.length = min height (session.machine.journal.size - session.scroll) ∧
        session.logLines height = shown.map (fun event => plain event.line) ∧
        (1 ≤ height → shown ≠ [])) ∧
    ∀ happening, ¬ happening.Works session →
      (session.meet happening).machine = session.machine := by
  intro session
  have hcoupled : session.IsCoupled :=
    meetAll_induction (fun _ happening hsession => hsession.meet happening) h.isCoupled happenings
  have hscroll := hcoupled.scroll
  refine ⟨hcoupled.run, ?_, by omega, by omega, fun height => ?_,
    fun happening => machine_meet_of_not_works⟩
  · rw [isRunning, Option.any_eq_true, Option.isSome_iff_exists]
    exact ⟨fun ⟨run, hrun, _⟩ => ⟨run, hrun⟩, fun ⟨run, hrun⟩ => ⟨run, hrun, (hcoupled.run run hrun).1⟩⟩
  · obtain ⟨earlier, shown, later, hevents, hlater, hshown, hlines⟩ :=
      exists_logLines (Nat.le_of_lt hscroll) height
    refine ⟨earlier, shown, later, hevents, hlater, hshown, hlines, fun hheight hnil => ?_⟩
    rw [hnil, List.length_nil] at hshown
    omega

/-- A machine that never halts. -/
def loopText : String :=
  "initial: q\nrules:\nq,_ -> q,_,R"

def loopDefinition : Definition :=
  ⟨none, "", "q", [], none, ["q,_ -> q,_,R"]⟩

def loopSession : Session :=
  ⟨Machine.new.setUp loopDefinition (Table.empty.insert ⟨⟨"q", '_'⟩, ⟨"q", '_', .right⟩⟩),
    loopDefinition, loopText, 0, none, 0, "Definition loaded from source. Press 'h' for help.", false,
    true⟩

theorem ofSource_loopText : ofSource loopText = .ok loopSession := by
  rfl

def loopHappenings : List Happening :=
  [.command .toggleRun, .elapse 0, .command .step, .command .scrollUp, .command .nextPreset]

theorem coupled_meetAll_loop :
    ofSource loopText = .ok loopSession ∧
      let session := loopSession.meetAll loopHappenings
      session.isRunning = true ∧ session.machine.isHalted = false ∧ session.scroll = 1 ∧
        session.scroll ≤ session.machine.journal.size - 1 ∧ session.logLines 1 ≠ [] ∧
        (session.meet (.command .nextPreset)).machine = session.machine := by
  obtain ⟨hrun, hrunning, -, hscroll, hlog, hsame⟩ :=
    coupled_meetAll (.ofSource ofSource_loopText) loopHappenings
  have hstored : (loopSession.meetAll loopHappenings).run.isSome = true := by decide
  obtain ⟨run, hstored⟩ := Option.isSome_iff_exists.1 hstored
  refine ⟨ofSource_loopText, ?_, (hrun run hstored).2, by decide, hscroll, ?_, hsame _ ?_⟩
  · rw [hrunning, hstored, Option.isSome_some]
  · obtain ⟨earlier, shown, later, -, -, -, hlines, hne⟩ := hlog 1
    rw [hlines, Ne, List.map_eq_nil_iff]
    exact hne (Nat.le_refl 1)
  · exact Bool.noConfusion

end Session

end TapeMachine
