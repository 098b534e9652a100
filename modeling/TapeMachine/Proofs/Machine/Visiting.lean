import TapeMachine.Proofs.Machine.Consistent
import TapeMachine.Proofs.Machine.Replay
import TapeMachine.Proofs.Machine.Run
import TapeMachine.Proofs.Machine.Textbook
import TapeMachine.Proofs.Tape.Extent

/-!
Which cells a machine stores. Loading stores the input, and from then on a cell is stored when the
head leaves it. So the stored cells are those from the leftmost place that the head left to the
rightmost, or to the end of the input, and the head stands among them or next to one. The places are
those of the textbook machine, which never numbers its cells anew.
-/

namespace TapeMachine

namespace Textbook.Machine

variable {machine : Machine} {input : String}

/-- A step applies the action for the run's situation, or moves nothing. -/
theorem next?_getD_cases (machine : Machine) (run : Run) :
    (((machine.next? run).getD run).config = run.config ∧
      ((machine.next? run).getD run).applied = run.applied) ∨
    ∃ action, run.verdict = .running ∧
      machine.transition run.config.situation = some action ∧
      ((machine.next? run).getD run).config = run.config.apply action ∧
      ((machine.next? run).getD run).applied = run.applied + 1 := by
  unfold next?
  cases run.verdict with
  | accepted | rejected => exact .inl ⟨rfl, rfl⟩
  | running =>
      cases machine.transition run.config.situation with
      | none => exact .inl ⟨rfl, rfl⟩
      | some action => exact .inr ⟨action, rfl, rfl, rfl, rfl⟩

/-- As long as a run goes on, each of its steps applies an action. -/
theorem applied_after_of_running {count : Nat}
    (h : (machine.after input count).verdict = .running) :
    (machine.after input count).applied = count := by
  induction count with
  | zero => rfl
  | succ count ih =>
      rw [after] at h ⊢
      generalize machine.after input count = run at *
      unfold next? at h ⊢
      cases hverdict : run.verdict with
      | accepted | rejected => simp [hverdict] at h
      | running =>
          cases htransition : machine.transition run.config.situation with
          | none => simp [hverdict, htransition] at h
          | some action => simp [ih hverdict]

/-- Where a run stands depends on the actions it applied, and not on the steps it made. -/
theorem config_after_applied (machine : Machine) (input : String) (count : Nat) :
    (machine.after input (machine.after input count).applied).config =
      (machine.after input count).config := by
  induction count with
  | zero => rfl
  | succ count ih =>
      rcases machine.next?_getD_cases (machine.after input count) with
        ⟨hconfig, happlied⟩ | ⟨action, hrunning, -, -, happlied⟩
      · rw [after, hconfig, happlied, ih]
      · have hcount := applied_after_of_running hrunning
        have hnext : (machine.after input (count + 1)).applied = count + 1 := by
          rw [after, happlied, hcount]
        rw [hnext]

end Textbook.Machine

/-- The move that an event tells of. -/
def Event.move? : Event → Option Direction
  | applied _ action => some action.direction
  | started _ _ _ | noRule _ | accepted _ | alreadyHalted | reset => none

namespace Journal

/-- The moves since the last start or reset. -/
def moves (journal : Journal) : List Direction :=
  journal.sinceOpening.filterMap Event.move?

theorem moves_record (journal : Journal) {event : Event} (h : event.opens = false) :
    (journal.record event).moves = journal.moves ++ event.move?.toList := by
  rw [moves, journal.sinceOpening_record h, List.filterMap_append, ← moves]
  cases event <;> rfl

theorem moves_record_of_opens (journal : Journal) {event : Event} (h : event.opens = true) :
    (journal.record event).moves = [] := by
  rw [moves, journal.sinceOpening_record_of_opens h]
  rfl

end Journal

namespace Operation

/-- Whether the operation makes steps and nothing else. -/
def isRun : Operation → Bool
  | step | run _ => true
  | load _ | reset => false

end Operation

namespace Machine

theorem performAll_induction_of_isRun {Holds : Machine → Prop}
    (hstep : ∀ machine, Holds machine → Holds machine.step.2) {machine : Machine}
    (hmachine : Holds machine) {operations : List Operation}
    (hruns : ∀ operation ∈ operations, operation.isRun = true) :
    Holds (machine.performAll operations) := by
  induction operations generalizing machine with
  | nil => exact hmachine
  | cons operation operations ih =>
      obtain ⟨hrun, hruns⟩ := List.forall_mem_cons.1 hruns
      refine ih (perform_induction hstep ?_ ?_ hmachine) hruns
      · rintro definition table rfl -
        contradiction
      · rintro rfl
        contradiction

/-- The head's place, counted from where it was when the machine was loaded. -/
def place (machine : Machine) : Int :=
  placeAfter 0 machine.journal.moves

/-- A step moves nothing, or writes and moves as the rule for the situation says. -/
theorem StepCase.moved {machine : Machine} {result : Step × Machine} (h : StepCase machine result) :
    (result.1.applied = false ∧ result.2.tape = machine.tape ∧
      result.2.journal.moves = machine.journal.moves) ∨
    ∃ action, result.1.applied = true ∧
      machine.program.table.find? machine.situation = some action ∧
      result.2.tape = (machine.tape.write action.write).shift action.direction ∧
      result.2.journal.moves = machine.journal.moves ++ [action.direction] := by
  cases h with
  | halted =>
      have hmoves := machine.journal.moves_record Event.opens_alreadyHalted
      exact .inl ⟨rfl, rfl, hmoves.trans (List.append_nil _)⟩
  | rejects =>
      have hmoves := machine.journal.moves_record (rfl : (Event.noRule machine.situation).opens = false)
      exact .inl ⟨rfl, rfl, hmoves.trans (List.append_nil _)⟩
  | @accepts action _ hsome _ =>
      have hmoves := machine.journal.moves_record (Event.opens_applied machine.situation action)
      have hlast := (machine.applyRule machine.situation action).journal.moves_record
        (rfl : (Event.accepted action.next).opens = false)
      exact .inr ⟨action, rfl, hsome, rfl, hlast.trans ((List.append_nil _).trans hmoves)⟩
  | @moves action _ hsome _ =>
      have hmoves := machine.journal.moves_record (Event.opens_applied machine.situation action)
      exact .inr ⟨action, rfl, hsome, rfl, hmoves⟩

theorem place_of_moves_eq {machine other : Machine}
    (h : other.journal.moves = machine.journal.moves) : other.place = machine.place := by
  rw [place, h, place]

theorem place_of_moves_concat {machine other : Machine} {direction : Direction}
    (h : other.journal.moves = machine.journal.moves ++ [direction]) :
    other.place = machine.place + direction.offset := by
  rw [place, h, placeAfter_concat, place]

/-- A machine that was loaded with the input and then only run: its tape stores the places that its
head left and those of the input, and a run of the textbook machine is where it is. -/
structure Explores (textbook : Textbook.Machine) (input : String) (machine : Machine) : Prop where
  consistent : machine.Consistent
  steps : machine.journal.moves.length = machine.steps
  heads : visited 0 machine.journal.moves =
    (List.range machine.steps).map fun time => (textbook.after input time).config.head
  first : machine.tape.firstPlace machine.place = (visited 0 machine.journal.moves).foldl min 0
  last : machine.tape.lastPlace machine.place =
    (visited 0 machine.journal.moves).foldl max (input.length - 1 : Int)
  implements : machine.program.Implements textbook
  simulates : ∃ count, Simulates machine (textbook.after input count) ∧
    (textbook.after input count).config.head = machine.place

theorem explores_setUp (machine : Machine) {definition : Definition} {table : Table}
    (htable : (Source.readTable definition.rules).table = .ok table) :
    (machine.setUp definition table).Explores (textbook definition table) definition.input := by
  have hmoves : (machine.setUp definition table).journal.moves = [] :=
    machine.journal.moves_record_of_opens rfl
  have hplace : (machine.setUp definition table).place = 0 := by rw [place, hmoves]; rfl
  have hsize : (machine.setUp definition table).tape.cells.size = definition.input.length := by
    rw [← String.length_toList]
    rfl
  exact {
    consistent := consistent_setUp htable machine
    steps := by rw [hmoves]; rfl
    heads := by rw [hmoves]; rfl
    first := by rw [hmoves, hplace]; rfl
    last := by
      rw [hmoves, hplace, Tape.lastPlace, hsize]
      have hhead : (machine.setUp definition table).tape.head = 0 := rfl
      rw [hhead, Int.sub_zero, Int.zero_add]
      rfl
    implements := machine.setUp_implements definition table
    simulates := ⟨0, machine.setUp_simulates definition table, hplace.symm⟩ }

namespace Explores

variable {machine : Machine} {textbook : Textbook.Machine} {input : String}

/-- The textbook run with as many applied actions is where the machine is. -/
theorem head_config (h : machine.Explores textbook input) :
    (textbook.after input machine.steps).config.head = machine.place := by
  obtain ⟨count, hsim, hhead⟩ := h.simulates
  rw [hsim.steps, textbook.config_after_applied, hhead]

/-- Machine and textbook run make the same move, or both stay. -/
theorem head_step (h : machine.Explores textbook input) {count : Nat}
    (hsim : Simulates machine (textbook.after input count))
    (hhead : (textbook.after input count).config.head = machine.place) :
    (textbook.after input (count + 1)).config.head = machine.step.2.place := by
  have hcase := machine.step_cases
  have hsteps := hcase.steps
  have hcount := (hcase.simulates h.implements hsim).1.steps
  rw [Textbook.Machine.after]
  rcases hcase.moved with ⟨happlied, -, hmoves⟩ | ⟨action, happlied, hsome, -, hmoves⟩
  · rw [place_of_moves_eq hmoves]
    rw [happlied, Bool.toNat_false, Nat.add_zero] at hsteps
    rcases textbook.next?_getD_cases (textbook.after input count) with
      ⟨hconfig, -⟩ | ⟨_, -, -, -, hmore⟩
    · rw [hconfig, hhead]
    · rw [hmore, hsteps, hsim.steps] at hcount
      omega
  · rw [place_of_moves_concat hmoves]
    rw [happlied, Bool.toNat_true] at hsteps
    rcases textbook.next?_getD_cases (textbook.after input count) with
      ⟨-, hsame⟩ | ⟨other, -, hother, hconfig, -⟩
    · rw [hsame, hsteps, hsim.steps] at hcount
      omega
    · rw [h.implements.transition, hsim.situation, hother] at hsome
      cases hsome
      rw [hconfig, ← hhead]
      rfl

theorem step (h : machine.Explores textbook input) : machine.step.2.Explores textbook input := by
  obtain ⟨count, hsim, hhead⟩ := h.simulates
  have hcase := machine.step_cases
  have himplements : machine.step.2.program.Implements textbook := hcase.program ▸ h.implements
  have hsimulates : ∃ count, Simulates machine.step.2 (textbook.after input count) ∧
      (textbook.after input count).config.head = machine.step.2.place :=
    ⟨count + 1, (hcase.simulates h.implements hsim).1, h.head_step hsim hhead⟩
  have hsteps := hcase.steps
  rcases hcase.moved with ⟨happlied, htape, hmoves⟩ | ⟨action, happlied, -, htape, hmoves⟩
  · have hplace := place_of_moves_eq hmoves
    rw [happlied, Bool.toNat_false, Nat.add_zero] at hsteps
    refine ⟨h.consistent.step, ?_, ?_, ?_, ?_, himplements, hsimulates⟩
    · rw [hmoves, hsteps, h.steps]
    · rw [hmoves, hsteps, h.heads]
    · rw [htape, hplace, hmoves, h.first]
    · rw [htape, hplace, hmoves, h.last]
  · have hplace := place_of_moves_concat hmoves
    rw [happlied, Bool.toNat_true] at hsteps
    refine ⟨h.consistent.step, ?_, ?_, ?_, ?_, himplements, hsimulates⟩
    · rw [hmoves, List.length_append, List.length_singleton, hsteps, h.steps]
    · rw [hmoves, hsteps, visited_concat, List.range_succ, List.map_append, List.map_singleton,
        h.head_config, h.heads]
      rfl
    · rw [htape, hplace, hmoves, Tape.firstPlace_move, visited_concat, List.foldl_append, ← h.first]
      rfl
    · rw [htape, hplace, hmoves, Tape.lastPlace_move, visited_concat, List.foldl_append, ← h.last]
      rfl

/-- A stored cell holds the symbol that the textbook run has at its place. -/
theorem getElem_cells (h : machine.Explores textbook input) {cell : Nat}
    (hcell : cell < machine.tape.cells.size) : machine.tape.cells[cell] =
      (textbook.after input machine.steps).config.cells
        (machine.tape.firstPlace machine.place + cell) := by
  obtain ⟨count, hsim, hhead⟩ := h.simulates
  have hsymbol := hsim.cells (cell - machine.tape.head)
  have hstored : machine.tape.head + (cell - machine.tape.head) = (cell : Int) := by omega
  have hplace : machine.place + (cell - machine.tape.head) =
      machine.tape.firstPlace machine.place + cell := by
    rw [Tape.firstPlace]
    omega
  rw [hstored, Tape.readAt_natCast, Array.getElem?_eq_getElem hcell, Option.getD_some, hhead,
    hplace] at hsymbol
  rw [hsim.steps, textbook.config_after_applied, hsymbol]

/-- Without a move the tape stores the input. -/
theorem of_steps_eq_zero (h : machine.Explores textbook input) (hzero : machine.steps = 0) :
    machine.tape.cells.size = input.length ∧ machine.tape.head = 0 := by
  have hmoves : machine.journal.moves = [] := by
    rw [← List.length_eq_zero_iff, h.steps, hzero]
  have hplace : machine.place = 0 := by rw [place, hmoves]; rfl
  have hfirst := h.first
  have hlast := h.last
  rw [hmoves, hplace] at hfirst hlast
  simp only [visited, List.foldl_nil, Tape.firstPlace, Tape.lastPlace] at hfirst hlast
  omega

/-- Once the head left a place, the first one that is stored is the leftmost that it left. -/
theorem min?_visited (h : machine.Explores textbook input) (hpos : 1 ≤ machine.steps) :
    (visited 0 machine.journal.moves).min? = some (machine.tape.firstPlace machine.place) := by
  have hfirst := h.first
  have hlength := h.steps
  cases hmoves : machine.journal.moves with
  | nil =>
      rw [hmoves, List.length_nil] at hlength
      omega
  | cons direction moves =>
      rw [hmoves] at hfirst
      rw [hfirst, visited, List.min?_cons', List.foldl_cons, Int.min_self]

theorem max?_visited (h : machine.Explores textbook input) :
    ((input.length - 1 : Int) :: visited 0 machine.journal.moves).max? =
      some (machine.tape.lastPlace machine.place) := by
  rw [h.last, List.max?_cons']

/-- A step stores one cell more at most, and none less. -/
theorem extent_step (h : machine.Explores textbook input) :
    machine.step.2.tape.firstPlace machine.step.2.place ≤ machine.tape.firstPlace machine.place ∧
      machine.tape.lastPlace machine.place ≤ machine.step.2.tape.lastPlace machine.step.2.place ∧
      machine.step.2.tape.cells.size ≤
        machine.tape.cells.size + machine.step.1.applied.toNat := by
  rcases machine.step_cases.moved with
    ⟨happlied, htape, hmoves⟩ | ⟨action, happlied, -, htape, hmoves⟩
  · rw [htape, place_of_moves_eq hmoves]
    exact ⟨Int.le_refl _, Int.le_refl _, Nat.le_add_right ..⟩
  · have hsize := machine.tape.size_write action.write
    have hge := h.consistent.head_ge
    have hle := h.consistent.head_le
    rw [htape, place_of_moves_concat hmoves, Tape.firstPlace_move, Tape.lastPlace_move, happlied]
    refine ⟨Int.min_le_left .., Int.le_max_left .., ?_⟩
    simp only [Tape.shift, Bool.toNat_true]
    omega

end Explores

/-- A machine that was loaded and then run stores the cells of an interval of places: from the
leftmost place that its head left, to the rightmost of these and of the input's. Its cells are those
of the textbook run with as many applied actions, and its head is where the moves have led. Before
the first move the input is stored. The head is among the stored cells or next to one, and a step
that applies an action stores one cell more at most, and loses none. -/
theorem stores_visited_places (machine : Machine) {definition : Definition} {loaded : Machine}
    (hload : machine.load definition = .ok loaded) {operations : List Operation}
    (hruns : ∀ operation ∈ operations, operation.isRun = true) :
    ∃ table, (Source.readTable definition.rules).table = .ok table ∧
      let now := loaded.performAll operations
      let config := ((textbook definition table).after definition.input now.steps).config
      let places := visited 0 now.journal.moves
      now.journal.moves.length = now.steps ∧ config.head = now.place ∧
      places = (List.range now.steps).map (fun time =>
        ((textbook definition table).after definition.input time).config.head) ∧
      (now.steps = 0 → now.tape.cells.size = definition.input.length ∧ now.tape.head = 0) ∧
      (1 ≤ now.steps → ∃ low high : Int, places.min? = some low ∧
        ((definition.input.length - 1 : Int) :: places).max? = some high ∧
        now.tape.cells.size = high - low + 1 ∧
        (∀ (cell : Nat) (hcell : cell < now.tape.cells.size),
          now.tape.cells[cell] = config.cells (low + cell)) ∧
        now.tape.head = now.place - low) ∧
      -1 ≤ now.tape.head ∧ now.tape.head ≤ now.tape.cells.size ∧
      now.step.2.tape.firstPlace now.step.2.place ≤ now.tape.firstPlace now.place ∧
      now.tape.lastPlace now.place ≤ now.step.2.tape.lastPlace now.step.2.place ∧
      now.step.2.tape.cells.size ≤ now.tape.cells.size + now.step.1.applied.toNat := by
  obtain ⟨table, htable, rfl⟩ := load_eq_ok_iff.1 hload
  have hnow := performAll_induction_of_isRun (fun _ h => Explores.step h)
    (machine.explores_setUp htable) hruns
  refine ⟨table, htable, hnow.steps, hnow.head_config, hnow.heads, hnow.of_steps_eq_zero,
    fun hpos => ?_, hnow.consistent.head_ge, hnow.consistent.head_le, hnow.extent_step⟩
  refine ⟨_, _, hnow.min?_visited hpos, hnow.max?_visited, ?_, fun cell => hnow.getElem_cells, ?_⟩
  · rw [Tape.firstPlace, Tape.lastPlace]
    omega
  · rw [Tape.firstPlace]
    omega

/-- The machine goes left of its input, writes there and comes back: two cells are stored. -/
theorem stores_visited_places_outAndBack :
    ∃ loaded, new.load outAndBack = .ok loaded ∧
      (∀ operation ∈ [Operation.step, .run 5], operation.isRun = true) ∧
      (loaded.performAll [.step, .run 5]).journal.moves = [.left, .right] ∧
      ((loaded.performAll [.step, .run 5]).tape.cells.size : Int) = 0 - -1 + 1 ∧
      (loaded.performAll [.step, .run 5]).tape.head = 0 - -1 := by
  have hload : new.load outAndBack = .ok (new.setUp outAndBack outAndBackTable) := by rfl
  have hruns : ∀ operation ∈ [Operation.step, .run 5], operation.isRun = true := by decide
  have hmoves : ((new.setUp outAndBack outAndBackTable).performAll [.step, .run 5]).journal.moves =
      [.left, .right] := by rfl
  obtain ⟨table, -, hsteps, -, -, -, hstored, -⟩ := stores_visited_places new hload hruns
  refine ⟨_, hload, hruns, hmoves, ?_⟩
  rw [hmoves] at hsteps hstored
  obtain ⟨low, high, hlow, hhigh, hsize, -, hhead⟩ := hstored (by rw [← hsteps]; decide)
  cases hlow
  cases hhigh
  rw [place, hmoves] at hhead
  exact ⟨hsize, hhead⟩

end Machine

end TapeMachine
