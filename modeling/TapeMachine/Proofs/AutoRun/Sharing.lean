import TapeMachine.Proofs.AutoRun.Schedule
import TapeMachine.Proofs.Machine.Operation
import Mathlib.Tactic.ByContra

/-!
Automatic runs that share a machine and tokens. Whatever is done with any of them, with the machine
or with the tokens, a run that is no longer active stays so and leaves the machine alone. A run
notices that its token was cancelled only when a step is due, so its phase may lag behind; being
active is the phase and the token together, and neither of the two ever goes back.
-/

namespace TapeMachine

/-! Tokens. -/

namespace Tokens

/-- Cancelling reaches the token itself and those derived from it, and takes nothing back. -/
theorem isCancelled_cancel_iff {tokens : Tokens} {token other : Token} :
    (tokens.cancel token).isCancelled other = true ↔
      tokens.isCancelled other = true ∨ token.number ∈ other.number :: other.ancestors := by
  simp only [isCancelled, cancel, List.any_eq_true, List.contains_cons, Bool.or_eq_true, beq_iff_eq]
  constructor
  · rintro ⟨number, hmem, rfl | hcancelled⟩
    · exact .inr hmem
    · exact .inl ⟨number, hmem, hcancelled⟩
  · rintro (⟨number, hmem, hcancelled⟩ | hmem)
    · exact ⟨number, hmem, .inr hcancelled⟩
    · exact ⟨token.number, hmem, .inl rfl⟩

end Tokens

/-! Phases. -/

/-- Phases come in this order. A run may be cancelled in any of them, and then stays so. -/
def Phase.rank : Phase → Nat
  | pending => 0
  | active => 1
  | finished => 2
  | cancelled => 3

theorem Phase.rank_le_cancelled (phase : Phase) : phase.rank ≤ cancelled.rank := by
  cases phase <;> decide

namespace Progress

variable {tokens : Tokens} {progress : Progress}

/-- A run that was active makes its steps until one of them halts the machine, or until it is
cancelled. -/
structure WentOn (progress : Progress) : Prop where
  rank_le : Phase.active.rank ≤ progress.run.phase.rank
  halted : progress.run.phase = .finished → progress.machine.isHalted = true

theorem wentOn_fire (hactive : progress.run.phase = .active) : (fire tokens progress).WentOn := by
  cases h : tokens.isCancelled progress.run.token with
  | true =>
      rw [fire, h, if_pos rfl]
      exact ⟨Phase.rank_le_cancelled _, fun hfinished => by cases hfinished⟩
  | false =>
      have hhalted := progress.machine.step_cases.isHalted_eq_false_iff
      rw [fire_of_not_cancelled h]
      split
      · refine ⟨Nat.le_of_eq (congrArg Phase.rank hactive.symm), fun hfinished => ?_⟩
        rw [hactive] at hfinished
        cases hfinished
      · next hhalts =>
          refine ⟨(by decide : Phase.active.rank ≤ Phase.finished.rank), fun _ => ?_⟩
          rw [← Bool.not_eq_false, hhalted]
          exact hhalts

theorem WentOn.fireDue (h : progress.WentOn) (count : Nat) : (fireDue tokens count progress).WentOn := by
  induction count generalizing progress with
  | zero => exact h
  | succ count ih =>
      rw [fireDue_succ]
      split
      · next hdue => exact ih (wentOn_fire hdue.1)
      · exact h

theorem fire_of_cancelled (h : tokens.isCancelled progress.run.token = true) :
    fire tokens progress = { progress with run := { progress.run with phase := .cancelled } } := by
  rw [fire, if_pos h]

/-- Once cancelled, a run makes none of the steps that are due. -/
theorem fireDue_of_cancelled (h : tokens.isCancelled progress.run.token = true) (count : Nat) :
    (fireDue tokens count progress).machine = progress.machine ∧
      (fireDue tokens count progress).applied = progress.applied := by
  cases count with
  | zero => exact ⟨rfl, rfl⟩
  | succ count =>
      rw [fireDue_succ]
      split
      · have hcancelled : tokens.isCancelled progress.spend.run.token = true := h
        rw [fire_of_cancelled hcancelled, fireDue_of_not_active (by simp)]
        exact ⟨rfl, rfl⟩
      · exact ⟨rfl, rfl⟩

end Progress

namespace AutoRun

variable {run : AutoRun} {tokens : Tokens}

theorem isActive_eq_true_iff : run.isActive tokens = true ↔
    run.phase.rank ≤ Phase.active.rank ∧ tokens.isCancelled run.token = false := by
  rw [isActive, Bool.and_eq_true, Bool.not_eq_true']
  refine and_congr_left' ?_
  cases run.phase <;> decide

theorem advance_of_pending (hpending : run.phase = .pending) (tokens : Tokens) (machine : Machine)
    (time : Nat) : ∃ count, run.advance tokens machine time =
      Progress.fireDue tokens count
        (Progress.fire tokens ⟨{ run with phase := .active }, machine, 0⟩) := by
  rw [advance, hpending]
  exact ⟨_, rfl⟩

/-- A run that ended, one way or the other, takes no notice of time. -/
theorem advance_of_ended (hended : Phase.finished.rank ≤ run.phase.rank) (tokens : Tokens)
    (machine : Machine) (time : Nat) : run.advance tokens machine time = ⟨run, machine, 0⟩ := by
  cases hphase : run.phase with
  | pending | active =>
      rw [hphase] at hended
      exact absurd hended (by decide)
  | finished => exact advance_finished hphase tokens machine time
  | cancelled =>
      have hnot : (⟨run, machine, 0⟩ : Progress).run.phase ≠ .active := by
        rw [hphase]
        nofun
      rw [advance, hphase]
      exact Progress.fireDue_of_not_active hnot _

theorem advance_of_cancelled (h : tokens.isCancelled run.token = true) (machine : Machine)
    (time : Nat) : (run.advance tokens machine time).machine = machine ∧
      (run.advance tokens machine time).applied = 0 := by
  cases hphase : run.phase with
  | pending =>
      obtain ⟨count, hadvance⟩ := advance_of_pending hphase tokens machine time
      have hstarted : tokens.isCancelled
          (⟨{ run with phase := .active }, machine, 0⟩ : Progress).run.token = true := h
      rw [hadvance, Progress.fire_of_cancelled hstarted, Progress.fireDue_of_not_active (by simp)]
      exact ⟨rfl, rfl⟩
  | active =>
      rw [advance_active hphase]
      exact Progress.fireDue_of_cancelled h _
  | finished | cancelled =>
      rw [advance_of_ended (by simp [hphase, Phase.rank])]
      exact ⟨rfl, rfl⟩

/-- A run that is not active leaves the machine alone. -/
theorem advance_of_not_active (h : run.isActive tokens = false) (machine : Machine) (time : Nat) :
    (run.advance tokens machine time).machine = machine ∧
      (run.advance tokens machine time).applied = 0 := by
  cases hcancelled : tokens.isCancelled run.token with
  | true => exact advance_of_cancelled hcancelled machine time
  | false =>
      have hended : Phase.finished.rank ≤ run.phase.rank := by
        by_contra hnot
        have hactive := isActive_eq_true_iff.2 ⟨Nat.le_of_lt_succ (Nat.not_le.1 hnot), hcancelled⟩
        rw [h] at hactive
        cases hactive
      rw [advance_of_ended hended]
      exact ⟨rfl, rfl⟩

/-- An advance takes a run forward, and finishes it only together with the machine. -/
theorem phase_advance (run : AutoRun) (tokens : Tokens) (machine : Machine) (time : Nat) :
    run.phase.rank ≤ (run.advance tokens machine time).run.phase.rank ∧
      (run.phase ≠ .finished → (run.advance tokens machine time).run.phase = .finished →
        (run.advance tokens machine time).machine.isHalted = true) := by
  cases hphase : run.phase with
  | pending =>
      obtain ⟨count, hadvance⟩ := advance_of_pending hphase tokens machine time
      have hwent : (run.advance tokens machine time).WentOn := by
        rw [hadvance]
        exact (Progress.wentOn_fire rfl).fireDue count
      exact ⟨Nat.zero_le _, fun _ => hwent.halted⟩
  | active =>
      have hstart : (⟨{ run with elapsed := run.elapsed + time }, machine, 0⟩ : Progress).WentOn :=
        ⟨Nat.le_of_eq (congrArg Phase.rank hphase.symm), fun hfinished => by simp [hphase] at hfinished⟩
      have hwent : (run.advance tokens machine time).WentOn := by
        rw [advance_active hphase]
        exact hstart.fireDue _
      exact ⟨hwent.rank_le, fun _ => hwent.halted⟩
  | finished | cancelled =>
      rw [advance_of_ended (by simp [hphase, Phase.rank]), hphase]
      exact ⟨Nat.le_refl _, fun hne heq => absurd heq hne⟩

end AutoRun

/-! Many runs. -/

/-- Automatic runs that share a machine and tokens. -/
structure Ensemble where
  machine : Machine
  tokens : Tokens
  runs : List AutoRun

/-- What can be done with the parts of an ensemble. Runs are known by their places, and a new one
comes last. -/
inductive Move where
  | advance (place time : Nat)
  | cancelRun (place : Nat)
  | cancelToken (token : Token)
  | operate (operation : Operation)
  | issue (parent : Option Token)
  | start (interval : Nat) (token : Token)
deriving DecidableEq

namespace Ensemble

def advance (ensemble : Ensemble) (place time : Nat) (run : AutoRun) : Ensemble :=
  let progress := run.advance ensemble.tokens ensemble.machine time
  { ensemble with machine := progress.machine, runs := ensemble.runs.set place progress.run }

def cancel (ensemble : Ensemble) (place : Nat) (run : AutoRun) : Ensemble :=
  let (cancelled, tokens) := run.cancel ensemble.tokens
  { ensemble with tokens := tokens, runs := ensemble.runs.set place cancelled }

def make (ensemble : Ensemble) : Move → Ensemble
  | .advance place time => ensemble.runs[place]?.elim ensemble (ensemble.advance place time)
  | .cancelRun place => ensemble.runs[place]?.elim ensemble (ensemble.cancel place)
  | .cancelToken token => { ensemble with tokens := ensemble.tokens.cancel token }
  | .operate operation => { ensemble with machine := ensemble.machine.perform operation }
  | .issue parent => { ensemble with tokens := (ensemble.tokens.issue parent).2 }
  | .start interval token => { ensemble with runs := ensemble.runs ++ [.new interval token] }

def makeAll (ensemble : Ensemble) (moves : List Move) : Ensemble :=
  moves.foldl make ensemble

/-- What a run and the tokens may become: the run goes forward, and nothing cancelled is revived. -/
structure Becomes (tokens : Tokens) (run : AutoRun) (laterTokens : Tokens) (later : AutoRun) :
    Prop where
  token : later.token = run.token
  rank_le : run.phase.rank ≤ later.phase.rank
  cancelled : ∀ token, tokens.isCancelled token = true → laterTokens.isCancelled token = true

namespace Becomes

variable {tokens laterTokens lastTokens : Tokens} {run later last : AutoRun}

theorem refl (tokens : Tokens) (run : AutoRun) : Becomes tokens run tokens run :=
  ⟨rfl, Nat.le_refl _, fun _ => id⟩

theorem trans (h : Becomes tokens run laterTokens later)
    (hnext : Becomes laterTokens later lastTokens last) : Becomes tokens run lastTokens last :=
  ⟨hnext.token.trans h.token, Nat.le_trans h.rank_le hnext.rank_le,
    fun token hcancelled => hnext.cancelled token (h.cancelled token hcancelled)⟩

theorem not_active (h : Becomes tokens run laterTokens later)
    (hstopped : run.isActive tokens = false) : later.isActive laterTokens = false := by
  by_contra hactive
  obtain ⟨hrank, htoken⟩ := AutoRun.isActive_eq_true_iff.1 (Bool.not_eq_false _ |>.mp hactive)
  have hbefore : tokens.isCancelled run.token = false := by
    by_contra hcancelled
    have hlater := h.cancelled run.token (Bool.not_eq_false _ |>.mp hcancelled)
    rw [← h.token, htoken] at hlater
    cases hlater
  rw [AutoRun.isActive_eq_true_iff.2 ⟨Nat.le_trans h.rank_le hrank, hbefore⟩] at hstopped
  cases hstopped

end Becomes

/-- A move takes a run forward. Only an advance of it finishes a run, and leaves the machine
halted. -/
structure Takes (ensemble : Ensemble) (place : Nat) (run : AutoRun) (move : Move) (later : AutoRun) :
    Prop where
  found : (ensemble.make move).runs[place]? = some later
  becomes : Becomes ensemble.tokens run (ensemble.make move).tokens later
  finishes : run.phase ≠ .finished → later.phase = .finished →
    (∃ time, move = .advance place time) ∧ (ensemble.make move).machine.isHalted = true

variable {ensemble : Ensemble} {place : Nat} {run : AutoRun}

theorem takes_of_same {move : Move} (hfound : (ensemble.make move).runs[place]? = some run)
    (hcancelled : ∀ token, ensemble.tokens.isCancelled token = true →
      (ensemble.make move).tokens.isCancelled token = true) :
    Takes ensemble place run move run :=
  ⟨hfound, ⟨rfl, Nat.le_refl _, hcancelled⟩, fun hne heq => absurd heq hne⟩

section Found

variable (hrun : ensemble.runs[place]? = some run)

include hrun

theorem lt_length : place < ensemble.runs.length :=
  (List.getElem?_eq_some_iff.1 hrun).1

theorem takes_advance (time : Nat) : Takes ensemble place run (.advance place time)
    (run.advance ensemble.tokens ensemble.machine time).run := by
  have hmake : ensemble.make (.advance place time) = ensemble.advance place time run := by
    rw [make, hrun, Option.elim_some]
  have htoken := (AutoRun.follows_advance run ensemble.tokens ensemble.machine time).token
  obtain ⟨hrank, hhalted⟩ := run.phase_advance ensemble.tokens ensemble.machine time
  refine ⟨?_, ⟨htoken, hrank, ?_⟩, fun hne heq => ⟨⟨time, rfl⟩, ?_⟩⟩
  · rw [hmake]
    exact List.getElem?_set_self (lt_length hrun)
  · rw [hmake]
    exact fun _ => id
  · rw [hmake]
    exact hhalted hne heq

theorem takes_cancelRun : Takes ensemble place run (.cancelRun place)
    (run.cancel ensemble.tokens).1 := by
  have hmake : ensemble.make (.cancelRun place) = ensemble.cancel place run := by
    rw [make, hrun, Option.elim_some]
  refine ⟨?_, ⟨rfl, Phase.rank_le_cancelled run.phase, ?_⟩, nofun⟩
  · rw [hmake]
    exact List.getElem?_set_self (lt_length hrun)
  · rw [hmake]
    exact fun _ hcancelled => Tokens.isCancelled_cancel_iff.2 (.inl hcancelled)

/-- What is done with one run does not touch another. -/
theorem takes_elsewhere {move : Move} {other : Nat} (hne : other ≠ place)
    {act : AutoRun → Ensemble} {next : AutoRun → AutoRun}
    (hmake : ensemble.make move = ensemble.runs[other]?.elim ensemble act)
    (hruns : ∀ found, (act found).runs = ensemble.runs.set other (next found))
    (hcancelled : ∀ found token, ensemble.tokens.isCancelled token = true →
      (act found).tokens.isCancelled token = true) :
    Takes ensemble place run move run := by
  cases hfound : ensemble.runs[other]? with
  | none =>
      rw [hfound, Option.elim_none] at hmake
      exact takes_of_same (by rw [hmake, hrun]) (by rw [hmake]; exact fun _ => id)
  | some found =>
      rw [hfound, Option.elim_some] at hmake
      refine takes_of_same ?_ ?_
      · rw [hmake, hruns]
        exact (List.getElem?_set_ne hne).trans hrun
      · rw [hmake]
        exact hcancelled found

theorem takes_advance_of_ne {other : Nat} (hne : other ≠ place) (time : Nat) :
    Takes ensemble place run (.advance other time) run :=
  takes_elsewhere hrun hne rfl (fun _ => rfl) fun _ _ => id

theorem takes_cancelRun_of_ne {other : Nat} (hne : other ≠ place) :
    Takes ensemble place run (.cancelRun other) run :=
  takes_elsewhere hrun hne rfl (fun _ => rfl) fun _ _ hcancelled =>
    Tokens.isCancelled_cancel_iff.2 (.inl hcancelled)

theorem exists_takes (move : Move) : ∃ later, Takes ensemble place run move later := by
  cases move with
  | advance other time =>
      by_cases hother : other = place
      · subst hother
        exact ⟨_, takes_advance hrun time⟩
      · exact ⟨run, takes_advance_of_ne hrun hother time⟩
  | cancelRun other =>
      by_cases hother : other = place
      · subst hother
        exact ⟨_, takes_cancelRun hrun⟩
      · exact ⟨run, takes_cancelRun_of_ne hrun hother⟩
  | cancelToken token =>
      exact ⟨run, takes_of_same hrun fun _ h => Tokens.isCancelled_cancel_iff.2 (.inl h)⟩
  | operate operation => exact ⟨run, takes_of_same hrun fun _ => id⟩
  | issue parent => exact ⟨run, takes_of_same hrun fun _ => id⟩
  | start interval token =>
      refine ⟨run, takes_of_same ?_ fun _ => id⟩
      exact (List.getElem?_append_left (lt_length hrun)).trans hrun

end Found

theorem exists_becomes (hrun : ensemble.runs[place]? = some run) (moves : List Move) :
    ∃ later, (ensemble.makeAll moves).runs[place]? = some later ∧
      Becomes ensemble.tokens run (ensemble.makeAll moves).tokens later := by
  induction moves generalizing ensemble run with
  | nil => exact ⟨run, hrun, .refl _ _⟩
  | cons move moves ih =>
      obtain ⟨next, htakes⟩ := exists_takes hrun move
      obtain ⟨later, hlater, hbecomes⟩ := ih htakes.found
      exact ⟨later, hlater, htakes.becomes.trans hbecomes⟩

/-- Whatever is done with an ensemble, each of its runs only goes forward, and is finished by nothing
but an advance of it that leaves the machine halted. A run that is not active is not so at any later
time either, and then no advance of it does anything to the machine. -/
theorem stopped_makeAll (hrun : ensemble.runs[place]? = some run) (moves : List Move) :
    let reached := ensemble.makeAll moves
    ∃ later, reached.runs[place]? = some later ∧
      run.phase.rank ≤ later.phase.rank ∧
      (∀ move, ∃ last, (reached.make move).runs[place]? = some last ∧
        (later.phase ≠ .finished → last.phase = .finished →
          (∃ time, move = .advance place time) ∧ (reached.make move).machine.isHalted = true)) ∧
      (run.isActive ensemble.tokens = false →
        later.isActive reached.tokens = false ∧
          ∀ time, (reached.make (.advance place time)).machine = reached.machine ∧
            (later.advance reached.tokens reached.machine time).applied = 0) := by
  intro reached
  obtain ⟨later, hlater, hbecomes⟩ := exists_becomes hrun moves
  refine ⟨later, hlater, hbecomes.rank_le, fun move => ?_, fun hstopped => ?_⟩
  · obtain ⟨last, htakes⟩ := exists_takes hlater move
    exact ⟨last, htakes.found, htakes.finishes⟩
  · have hnot := hbecomes.not_active hstopped
    refine ⟨hnot, fun time => ?_⟩
    obtain ⟨hmachine, happlied⟩ := AutoRun.advance_of_not_active hnot reached.machine time
    refine ⟨?_, happlied⟩
    rw [make, hlater, Option.elim_some]
    exact hmachine

/-- Two runs of the walker, the first with a token derived from that of the second. The first one
has made a step when the second one's token is cancelled. -/
def walkers : Ensemble :=
  let parent : Token := ⟨0, []⟩
  let child : Token := ⟨1, [0]⟩
  (⟨AutoRun.walker, .empty, []⟩ : Ensemble).makeAll
    [.issue none, .issue (some parent), .start 0 child, .start 0 parent, .advance 0 0,
      .cancelToken parent]

/-- The first run does not notice before a step is due that it was stopped. -/
theorem stopped_makeAll_walkers :
    ∃ run, walkers.runs[0]? = some run ∧ run.phase = .active ∧
      run.isActive walkers.tokens = false ∧
      let reached := walkers.makeAll [.advance 0 500000, .operate .step, .advance 0 0]
      ∃ later, reached.runs[0]? = some later ∧ later.isActive reached.tokens = false ∧
        ∀ time, (reached.make (.advance 0 time)).machine = reached.machine ∧
          (later.advance reached.tokens reached.machine time).applied = 0 := by
  have hrun : walkers.runs[0]? = some
      ⟨millisecond, 0, .active, ⟨1, [0]⟩, Nat.le_refl _⟩ := by rfl
  refine ⟨_, hrun, rfl, by rfl, ?_⟩
  obtain ⟨later, hlater, -, -, hstopped⟩ :=
    stopped_makeAll hrun [.advance 0 500000, .operate .step, .advance 0 0]
  exact ⟨later, hlater, hstopped (by rfl)⟩

end Ensemble

end TapeMachine
