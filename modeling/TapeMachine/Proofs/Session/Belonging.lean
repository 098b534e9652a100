import TapeMachine.Proofs.AutoRun.Keeping
import TapeMachine.Proofs.Session.Happening
import TapeMachine.Proofs.Tape.View

/-!
The machine of a session belongs to the definition that the session shows. Resetting and running
keep what loading sets, and turning to a preset exchanges the machine together with the definition.
So the definition can always be loaded again.
-/

namespace TapeMachine

namespace Machine

/-- What loading the definition sets, and running and resetting keep. -/
structure BelongsTo (machine : Machine) (definition : Definition) : Prop where
  table : (Source.readTable definition.rules).table = .ok machine.program.table
  initial : machine.program.initial = definition.initial
  finals : machine.program.finals = NameSet.ofList definition.finals
  blank : machine.tape.blank = definition.blank.getD defaultBlank

variable {machine : Machine} {definition : Definition}

theorem belongsTo_setUp {table : Table}
    (h : (Source.readTable definition.rules).table = .ok table) (machine : Machine) :
    (machine.setUp definition table).BelongsTo definition :=
  ⟨h, rfl, rfl, rfl⟩

theorem StepCase.blank {result : Step × Machine} (h : StepCase machine result) :
    result.2.tape.blank = machine.tape.blank := by
  cases h with
  | halted | rejects => rfl
  | accepts | moves => exact machine.tape.blank_write _

theorem BelongsTo.step (h : machine.BelongsTo definition) : machine.step.2.BelongsTo definition := by
  have hprogram := machine.step_cases.program
  refine ⟨?_, ?_, ?_, machine.step_cases.blank.trans h.blank⟩
  · rw [hprogram, h.table]
  · rw [hprogram, h.initial]
  · rw [hprogram, h.finals]

theorem BelongsTo.reset (h : machine.BelongsTo definition) : machine.reset.BelongsTo definition :=
  ⟨h.table, h.initial, h.finals, h.blank⟩

end Machine

namespace Session

variable {session : Session}

/-! The machine. -/

theorem Opened.belongsTo (h : session.Opened) : session.machine.BelongsTo session.definition := by
  obtain ⟨table, definition, source, message, isCustom, htable, rfl⟩ := h.exists_eq
  exact Machine.belongsTo_setUp htable .new

theorem belongsTo_turn (h : session.machine.BelongsTo session.definition) (places : Nat) :
    (session.turn places).machine.BelongsTo (session.turn places).definition := by
  cases hcustom : session.isCustom with
  | true =>
      rw [turn_of_isCustom hcustom]
      exact h
  | false =>
      obtain ⟨preset, table, -, htable, hturn⟩ := exists_turn hcustom places
      rw [hturn]
      exact Machine.belongsTo_setUp htable .new

theorem belongsTo_meet (h : session.machine.BelongsTo session.definition) (happening : Happening) :
    (session.meet happening).machine.BelongsTo (session.meet happening).definition := by
  cases happening with
  | elapse time =>
      rw [meet]
      cases hrun : session.run with
      | none => rwa [elapse_of_none hrun]
      | some run =>
          have hstep (machine : Machine) (hmachine : machine.BelongsTo session.definition) :=
            hmachine.step
          rw [elapse_of_some hrun]
          exact AutoRun.advance_induction hstep h run tokens time
  | command command =>
      cases command with
      | quit | toggleHelp | scrollUp | scrollDown => exact h
      | reset => exact h.reset
      | restart =>
          rw [meet, perform, restart_of_readTable h.table]
          exact Machine.belongsTo_setUp h.table session.machine
      | step =>
          rw [meet, perform, step_eq]
          exact h.step
      | toggleRun =>
          rw [meet, perform, toggleRun_eq]
          exact h
      | previousPreset | nextPreset => exact belongsTo_turn h _

/-! The definition. -/

/-- By how many places the happening asks to go on among the presets. -/
def places : Happening → Int
  | .command .nextPreset => 1
  | .command .previousPreset => -1
  | _ => 0

/-- Only turning to a preset changes what the session shows. -/
theorem turns_or_shown_meet (session : Session) (happening : Happening) :
    happening = .command .previousPreset ∨ happening = .command .nextPreset ∨
      places happening = 0 ∧
      (session.meet happening).definition = session.definition ∧
      (session.meet happening).source = session.source ∧
      (session.meet happening).preset = session.preset ∧
      (session.meet happening).isCustom = session.isCustom := by
  cases happening with
  | elapse time =>
      rw [meet]
      cases hrun : session.run with
      | none =>
          rw [elapse_of_none hrun]
          exact .inr (.inr ⟨rfl, rfl, rfl, rfl, rfl⟩)
      | some run =>
          rw [elapse_of_some hrun]
          exact .inr (.inr ⟨rfl, rfl, rfl, rfl, rfl⟩)
  | command command =>
      cases command with
      | previousPreset => exact .inl rfl
      | nextPreset => exact .inr (.inl rfl)
      | quit | reset | toggleHelp | scrollUp | scrollDown =>
          exact .inr (.inr ⟨rfl, rfl, rfl, rfl, rfl⟩)
      | restart =>
          rw [meet, perform, restart]
          split <;> exact .inr (.inr ⟨rfl, rfl, rfl, rfl, rfl⟩)
      | step =>
          rw [meet, perform, step_eq]
          exact .inr (.inr ⟨rfl, rfl, rfl, rfl, rfl⟩)
      | toggleRun =>
          rw [meet, perform, toggleRun_eq]
          exact .inr (.inr ⟨rfl, rfl, rfl, rfl, rfl⟩)

/-- By how many places the happenings do, taken together. -/
def placesAll (happenings : List Happening) : Int :=
  happenings.count (.command .nextPreset) - happenings.count (.command .previousPreset)

theorem placesAll_cons (happening : Happening) (happenings : List Happening) :
    placesAll (happening :: happenings) = places happening + placesAll happenings := by
  rw [placesAll, placesAll]
  cases happening with
  | elapse time => simp [places]
  | command command => cases command <;> simp [places] <;> omega

/-- The session shows a preset, and this is so many places on from the first. -/
structure IsAtPlace (session : Session) (place : Int) : Prop where
  isCustom : session.isCustom = false
  preset : (session.preset : Int) = place % Preset.all.length
  found : Preset.atIndex session.preset = .ok ⟨session.definition, session.source⟩

theorem IsAtPlace.turn {place : Int} (h : session.IsAtPlace place) (count : Nat) :
    (session.turn count).IsAtPlace (place + count) := by
  obtain ⟨preset, table, hpreset, -, hturn⟩ := exists_turn h.isCustom count
  rw [hturn]
  refine ⟨h.isCustom, ?_, hpreset⟩
  dsimp only
  rw [Int.natCast_emod, Int.natCast_add, h.preset, Int.emod_add_emod]

theorem IsAtPlace.meet {place : Int} (h : session.IsAtPlace place) (happening : Happening) :
    (session.meet happening).IsAtPlace (place + places happening) := by
  rcases session.turns_or_shown_meet happening with rfl | rfl | hshown
  · have hlength : ((Preset.all.length - 1 : Nat) : Int) = -1 + Preset.all.length := by
      have hpos := Preset.length_all_pos
      omega
    obtain ⟨hcustom, hpreset, hfound⟩ := h.turn (Preset.all.length - 1)
    refine ⟨hcustom, ?_, hfound⟩
    rw [hlength, ← Int.add_assoc, Int.add_emod_right] at hpreset
    exact hpreset
  · exact h.turn 1
  · obtain ⟨hplaces, hdefinition, hsource, hpreset, hcustom⟩ := hshown
    rw [hplaces, Int.add_zero]
    exact ⟨hcustom.trans h.isCustom, by rw [hpreset, h.preset],
      by rw [hpreset, hdefinition, hsource, h.found]⟩

theorem IsAtPlace.meetAll {place : Int} (h : session.IsAtPlace place)
    (happenings : List Happening) :
    (session.meetAll happenings).IsAtPlace (place + placesAll happenings) := by
  induction happenings generalizing session place with
  | nil =>
      rw [show placesAll [] = 0 from rfl, Int.add_zero]
      exact h
  | cons happening happenings ih =>
      rw [placesAll_cons, ← Int.add_assoc]
      exact ih (h.meet happening)

/-- The session shows a definition that was given to it. -/
structure Shows (session : Session) (definition : Definition) (source : String) : Prop where
  isCustom : session.isCustom = true
  definition : session.definition = definition
  source : session.source = source

theorem Shows.turn {definition : Definition} {source : String} (h : session.Shows definition source)
    (count : Nat) : (session.turn count).Shows definition source := by
  rw [turn_of_isCustom h.isCustom]
  exact ⟨h.isCustom, h.definition, h.source⟩

theorem Shows.meet {definition : Definition} {source : String} (h : session.Shows definition source)
    (happening : Happening) : (session.meet happening).Shows definition source := by
  rcases session.turns_or_shown_meet happening with rfl | rfl | hshown
  · exact h.turn _
  · exact h.turn _
  · obtain ⟨-, hdefinition, hsource, -, hcustom⟩ := hshown
    exact ⟨hcustom.trans h.isCustom, hdefinition.trans h.definition, hsource.trans h.source⟩

theorem isAtPlace_ofPresets (h : ofPresets = .ok session) : session.IsAtPlace 0 := by
  obtain ⟨preset, hpreset, hbegin⟩ := ofPresets_eq_ok.1 h
  obtain ⟨table, -, rfl⟩ := begin_eq_ok.1 hbegin
  exact ⟨rfl, (Int.zero_emod _).symm, hpreset⟩

theorem exists_shows_ofSource {source : String} (h : ofSource source = .ok session) :
    ∃ definition, Definition.ofText source = .ok definition ∧ session.Shows definition source := by
  obtain ⟨definition, hread, hbegin⟩ := ofSource_eq_ok.1 h
  obtain ⟨table, -, rfl⟩ := begin_eq_ok.1 hbegin
  exact ⟨definition, hread, rfl, rfl, rfl⟩

/-- Whatever happens to a session, its machine has the rules, the states and the blank symbol of the
definition that it shows. This is that of the preset to which it was turned, or the one that was
given to the session. Loading it again never fails, and leaves a running machine that shows what a
new one does which was loaded with it. -/
theorem belongs_meetAll {start : Session} (h : start.Opened) (happenings : List Happening) :
    let session := start.meetAll happenings
    session.machine.BelongsTo session.definition ∧
    (ofPresets = .ok start →
      session.isCustom = false ∧
      (session.preset : Int) = ((happenings.count (.command .nextPreset) : Int) -
        happenings.count (.command .previousPreset)) % Preset.all.length ∧
      Preset.atIndex session.preset = .ok ⟨session.definition, session.source⟩) ∧
    (∀ source, ofSource source = .ok start →
      session.isCustom = true ∧ Definition.ofText source = .ok session.definition ∧
        session.source = source) ∧
    ∃ fresh, Machine.new.load session.definition = .ok fresh ∧
      session.machine.load session.definition = .ok session.restart.machine ∧
      session.restart.machine.status = .running ∧
      session.restart.machine.config = fresh.config ∧
      session.restart.run = none ∧ session.restart.scroll = 0 := by
  intro session
  have hmeet (session : Session) (happening : Happening)
      (hsession : session.machine.BelongsTo session.definition) :=
    belongsTo_meet hsession happening
  have hbelongs := meetAll_induction hmeet h.belongsTo happenings
  refine ⟨hbelongs, fun hpresets => ?_, fun source hsource => ?_, ?_⟩
  · obtain ⟨hcustom, hpreset, hfound⟩ := (isAtPlace_ofPresets hpresets).meetAll happenings
    rw [Int.zero_add] at hpreset
    exact ⟨hcustom, hpreset, hfound⟩
  · obtain ⟨definition, hread, hshows⟩ := exists_shows_ofSource hsource
    have hkept (session : Session) (happening : Happening)
        (hsession : session.Shows definition source) := hsession.meet happening
    have hreached := meetAll_induction hkept hshows happenings
    exact ⟨hreached.isCustom, by rw [hreached.definition, hread], hreached.source⟩
  · have hrestart := restart_of_readTable hbelongs.table
    refine ⟨_, Machine.load_eq_ok_iff.2 ⟨_, hbelongs.table, rfl⟩,
      Machine.load_eq_ok_iff.2 ⟨_, hbelongs.table, ?_⟩, ?_, ?_, ?_, ?_⟩
    all_goals rw [hrestart]
    all_goals rfl

theorem exists_ofPresets : ∃ session, ofPresets = .ok session := by
  obtain ⟨preset, hmem, hpreset⟩ :=
    Preset.exists_atIndex Preset.length_all_pos
  obtain ⟨table, htable⟩ := Preset.exists_readTable hmem
  exact ⟨_, ofPresets_eq_ok.2 ⟨preset, hpreset, begin_eq_ok.2 ⟨table, htable, rfl⟩⟩⟩

/-- Turned once forward and twice back, a session shows the last preset. -/
theorem belongs_meetAll_presets :
    ∃ start, ofPresets = .ok start ∧
      let session := start.meetAll [.command .nextPreset, .command .step, .command .reset,
        .command .previousPreset, .elapse 0, .command .previousPreset]
      session.preset = 4 ∧
        Preset.atIndex session.preset = .ok ⟨session.definition, session.source⟩ ∧
        session.machine.BelongsTo session.definition ∧
        session.restart.machine.status = .running := by
  obtain ⟨start, hstart⟩ := exists_ofPresets
  obtain ⟨hbelongs, hpresets, -, fresh, -, -, hrunning, -⟩ :=
    belongs_meetAll (.ofPresets hstart) [.command .nextPreset, .command .step, .command .reset,
        .command .previousPreset, .elapse 0, .command .previousPreset]
  obtain ⟨-, hpreset, hfound⟩ := hpresets hstart
  rw [Preset.length_all] at hpreset
  exact ⟨start, hstart, Int.ofNat.inj hpreset, hfound, hbelongs, hrunning⟩

end Session

end TapeMachine
