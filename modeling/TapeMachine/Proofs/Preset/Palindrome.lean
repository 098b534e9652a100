import TapeMachine.Proofs.Machine.Course
import TapeMachine.Proofs.Preset.Sheets
import Mathlib.Data.List.Induction
import Mathlib.Data.List.Palindrome
import Mathlib.Tactic.Ring

/-!
The preset for palindromes. It takes the first letter of the word with it to the end, erases there
the letter that is like it, and goes back for the next one. Each round leaves the word between the
two letters, in more blanks than before, so the rounds follow the word as a palindrome is built up.
-/

namespace TapeMachine.Preset.Palindrome

def program : Program :=
  ⟨"q0", .ofList ["yes"], .ofRules palindromeSheet.rules⟩

/-! The rules, told apart by the letter that they carry. -/

def IsLetter (c : Char) : Prop :=
  c = 'a' ∨ c = 'b'

/-- The state that takes the letter to the end of the word. -/
def carrying (letter : Char) : String :=
  if letter = 'a' then "qa" else "qb"

/-- The state that looks for the letter at the end of the word. -/
def checking (letter : Char) : String :=
  if letter = 'a' then "ca" else "cb"

section Rules

variable {letter symbol : Char}

theorem find?_start (h : IsLetter letter) :
    program.table.find? ⟨"q0", letter⟩ = some ⟨carrying letter, '_', .right⟩ := by
  rw [program, Table.find?_ofRules]
  rcases h with rfl | rfl <;> rfl

theorem find?_start_blank : program.table.find? ⟨"q0", '_'⟩ = some ⟨"yes", '_', .right⟩ := by
  rw [program, Table.find?_ofRules]
  rfl

theorem find?_carrying (h : IsLetter letter) (hsymbol : IsLetter symbol) :
    program.table.find? ⟨carrying letter, symbol⟩ = some ⟨carrying letter, symbol, .right⟩ := by
  rw [program, Table.find?_ofRules]
  rcases h with rfl | rfl <;> rcases hsymbol with rfl | rfl <;> rfl

theorem find?_carrying_blank (h : IsLetter letter) :
    program.table.find? ⟨carrying letter, '_'⟩ = some ⟨checking letter, '_', .left⟩ := by
  rw [program, Table.find?_ofRules]
  rcases h with rfl | rfl <;> rfl

theorem find?_checking (h : IsLetter letter) (hsymbol : IsLetter symbol) :
    program.table.find? ⟨checking letter, symbol⟩ =
      if symbol = letter then some ⟨"back", '_', .left⟩ else none := by
  rw [program, Table.find?_ofRules]
  rcases h with rfl | rfl <;> rcases hsymbol with rfl | rfl <;> rfl

theorem find?_checking_blank (h : IsLetter letter) :
    program.table.find? ⟨checking letter, '_'⟩ = some ⟨"yes", '_', .right⟩ := by
  rw [program, Table.find?_ofRules]
  rcases h with rfl | rfl <;> rfl

theorem find?_back (h : IsLetter symbol) :
    program.table.find? ⟨"back", symbol⟩ = some ⟨"back", symbol, .left⟩ := by
  rw [program, Table.find?_ofRules]
  rcases h with rfl | rfl <;> rfl

theorem find?_back_blank : program.table.find? ⟨"back", '_'⟩ = some ⟨"q0", '_', .right⟩ := by
  rw [program, Table.find?_ofRules]
  rfl

theorem mem_finals {state : String} : state ∈ program.finals ↔ state = "yes" := by
  rw [program, NameSet.mem_ofList, List.mem_singleton]

theorem carrying_not_mem_finals (letter : Char) : carrying letter ∉ program.finals := by
  rw [mem_finals, carrying]
  split <;> decide

theorem checking_not_mem_finals (letter : Char) : checking letter ∉ program.finals := by
  rw [mem_finals, checking]
  split <;> decide

end Rules

/-! The rounds. -/

def blanks (count : Nat) : List Char :=
  List.replicate count '_'

theorem head?_blanks (count : Nat) : (blanks count).head?.getD '_' = '_' := by
  cases count <;> rfl

theorem tail_blanks (count : Nat) : (blanks count).tail = blanks (count - 1) :=
  List.tail_replicate ..

theorem cons_tail_blanks (count : Nat) : '_' :: (blanks count).tail = blanks (count - 1 + 1) := by
  cases count <;> rfl

/-- The head stands on the first letter of the word, which has blanks around it. -/
def scene (before after : Nat) (word : List Char) : Scene :=
  ⟨.heading '_' (word ++ blanks after) (blanks before) .right, "q0"⟩

theorem scene_zero (word : List Char) : scene 0 0 word = ⟨.heading '_' word [] .right, "q0"⟩ := by
  rw [scene, blanks, List.replicate_zero, List.append_nil]

section Rounds

variable {first : Char} {middle : List Char} (hfirst : IsLetter first)
  (hmiddle : ∀ c ∈ middle, IsLetter c) (before after : Nat)

include hfirst hmiddle

/-- The first letter is erased and taken to the end of the word. -/
theorem leads_carry : program.Leads (middle.length + 2) (scene before after (first :: middle))
    ⟨.heading '_' (middle.reverse ++ blanks (before + 1)) (blanks (after - 1 + 1)) .left,
      checking first⟩ := by
  have htake : program.Leads 1 (scene before after (first :: middle))
      ⟨.heading '_' (middle ++ blanks after) (blanks (before + 1)) .right, carrying first⟩ :=
    Program.leads_onward (find?_start hfirst) (carrying_not_mem_finals first) rfl (blanks before)
  have hscan := Program.leads_scan (fun c hc => find?_carrying hfirst (hmiddle c hc))
    (carrying_not_mem_finals first) '_' (blanks after) (blanks (before + 1))
  have hturn := Program.leads_about (find?_carrying_blank hfirst) (checking_not_mem_finals first)
    (head?_blanks after) (by decide : Direction.left ≠ .right) (middle.reverse ++ blanks (before + 1))
  rw [List.map_id'] at hscan
  rw [cons_tail_blanks] at hturn
  have hcourse := htake.trans (hscan.trans hturn)
  rwa [Nat.add_left_comm] at hcourse

/-- The last letter is erased when it is like the first one, and the head goes back. -/
theorem leads_round : program.Leads (2 * middle.length + 5)
    (scene before after (first :: (middle ++ [first])))
    (scene (before + 1) (after - 1 + 2) middle) := by
  have hletters : ∀ c ∈ middle ++ [first], IsLetter c :=
    List.forall_mem_append.2 ⟨hmiddle, List.forall_mem_singleton.2 hfirst⟩
  have hcarry := leads_carry hfirst hletters before after
  have hfound : program.table.find? ⟨checking first, first⟩ = some ⟨"back", '_', .left⟩ := by
    rw [find?_checking hfirst hfirst, if_pos rfl]
  have herase := Program.leads_onward hfound (by rw [mem_finals]; decide)
    (rfl : (first :: (middle.reverse ++ blanks (before + 1))).head?.getD '_' = first)
    (blanks (after - 1 + 1))
  have hscan := Program.leads_scan
    (fun c hc => find?_back (hmiddle c (List.mem_reverse.1 hc))) (by rw [mem_finals]; decide) '_'
    (blanks (before + 1)) (blanks (after - 1 + 2))
  have hturn := Program.leads_about find?_back_blank (by rw [mem_finals]; decide)
    (head?_blanks (before + 1)) (by decide : Direction.right ≠ .left)
    (middle ++ blanks (after - 1 + 2))
  rw [List.length_append, List.length_singleton, List.reverse_append, List.reverse_singleton,
    List.append_assoc, List.singleton_append] at hcarry
  rw [List.map_id', List.length_reverse, List.reverse_reverse] at hscan
  have hcourse := hcarry.trans (herase.trans (hscan.trans hturn))
  have hcount : middle.length + 1 + 2 + (1 + (middle.length + 1)) = 2 * middle.length + 5 := by
    omega
  rwa [hcount] at hcourse

end Rounds

/-! The end. -/

/-- The number of attempts that a palindrome of this length takes. -/
def attempts (length : Nat) : Nat :=
  (length + 1) * (length + 2) / 2

theorem attempts_add_two (length : Nat) : attempts (length + 2) = attempts length + (2 * length + 5) := by
  have hsplit : (length + 2 + 1) * (length + 2 + 2) =
      (length + 1) * (length + 2) + 2 * (2 * length + 5) := by
    ring
  rw [attempts, attempts, hsplit, Nat.add_mul_div_left _ _ (by decide)]

/-- Every cell is blank, stored or not. -/
def IsErased (tape : Tape) : Prop :=
  ∀ place, tape.readAt place = '_'

theorem isErased_heading (ahead behind : Nat) (direction : Direction) :
    IsErased (.heading '_' (blanks ahead) (blanks behind) direction) := by
  have hcells : ∀ c ∈ (Tape.heading '_' (blanks ahead) (blanks behind) direction).cells, c = '_' := by
    cases direction <;> simp [Tape.heading, blanks]
  have hblank : (Tape.heading '_' (blanks ahead) (blanks behind) direction).blank = '_' := by
    cases direction <;> rfl
  intro place
  by_cases hneg : place < 0
  · rw [Tape.readAt_of_neg _ hneg, hblank]
  · obtain ⟨cell, rfl⟩ := Int.eq_ofNat_of_zero_le (Int.not_lt.1 hneg)
    rw [Tape.readAt_natCast, hblank]
    cases hcell : (Tape.heading '_' (blanks ahead) (blanks behind) direction).cells[cell]? with
    | none => rfl
    | some c => exact hcells c (Array.mem_of_getElem? hcell)

section End

variable {word : List Char}

/-- A palindrome is erased round by round, and its middle is found blank. -/
theorem accepts_of_palindrome (h : word.Palindrome) (hletters : ∀ c ∈ word, IsLetter c)
    (before after : Nat) : ∃ count last,
      program.Halts count .accepted (scene before after word) last ∧
        count + 1 = attempts word.length ∧ last.state = "yes" ∧ IsErased last.tape := by
  induction h generalizing before after with
  | nil =>
      have hlast : program.Halts 0 .accepted (scene before after [])
          ⟨.heading '_' (blanks after).tail (blanks (before + 1)) .right, "yes"⟩ :=
        Program.halts_onward find?_start_blank (mem_finals.2 rfl) (head?_blanks after) (blanks before)
      rw [tail_blanks] at hlast
      exact ⟨_, _, hlast, rfl, rfl, isErased_heading _ _ _⟩
  | singleton first =>
      have hfirst := hletters first List.mem_cons_self
      have hcarry := leads_carry hfirst (List.forall_mem_nil _) before after
      have hlast := Program.halts_about (find?_checking_blank hfirst) (mem_finals.2 rfl)
        (head?_blanks (before + 1)) (by decide : Direction.right ≠ .left) (blanks (after - 1 + 1))
      rw [cons_tail_blanks] at hlast
      exact ⟨_, _, hcarry.halts hlast, by simp [attempts], rfl, isErased_heading _ _ _⟩
  | @cons_concat first middle hmiddle ih =>
      obtain ⟨hfirst, hrest⟩ := List.forall_mem_cons.1 hletters
      have hmiddleLetters := (List.forall_mem_append.1 hrest).1
      obtain ⟨count, last, hlast, hcount, herased⟩ :=
        ih hmiddleLetters (before + 1) (after - 1 + 2)
      have hround := leads_round hfirst hmiddleLetters before after
      refine ⟨_, last, hround.halts hlast, ?_, herased⟩
      have hlength : (first :: (middle ++ [first])).length = middle.length + 2 := by simp
      rw [hlength, attempts_add_two, ← hcount]
      omega

/-- What is not a palindrome comes to two letters that differ. -/
theorem rejects_of_not_palindrome (h : ¬ word.Palindrome) (hletters : ∀ c ∈ word, IsLetter c)
    (before after : Nat) : ∃ count last,
      program.Halts count .rejected (scene before after word) last ∧
        count + 1 ≤ attempts word.length := by
  induction word using List.bidirectionalRec generalizing before after with
  | nil => exact absurd .nil h
  | singleton first => exact absurd (.singleton first) h
  | cons_append first middle last ih =>
      obtain ⟨hfirst, hrest⟩ := List.forall_mem_cons.1 hletters
      obtain ⟨hmiddle, hlast⟩ := List.forall_mem_append.1 hrest
      have hlength : (first :: (middle ++ [last])).length = middle.length + 2 := by simp
      rw [hlength, attempts_add_two]
      by_cases heq : last = first
      · subst heq
        have hnot : ¬ middle.Palindrome := fun hpalindrome => h (.cons_concat last hpalindrome)
        obtain ⟨count, final, hfinal, hcount⟩ := ih hnot hmiddle (before + 1) (after - 1 + 2)
        have hround := leads_round hfirst hmiddle before after
        exact ⟨_, final, hround.halts hfinal, by omega⟩
      · have hnone : program.table.find? ⟨checking first, last⟩ = none := by
          rw [find?_checking hfirst (List.forall_mem_singleton.1 hlast), if_neg heq]
        have hcarry := leads_carry hfirst hrest before after
        rw [List.length_append, List.length_singleton, List.reverse_append, List.reverse_singleton,
          List.append_assoc, List.singleton_append] at hcarry
        have hend := Program.halts_rejected hnone
          (rfl : (last :: (middle.reverse ++ blanks (before + 1))).head?.getD '_' = last)
          (blanks (after - 1 + 1)) .left
        exact ⟨_, _, hcarry.halts hend, by omega⟩

end End

/-! The machine. -/

/-- The preset, loaded with any word of the two letters, tells whether this is a palindrome. The run
ends within the number of attempts that a palindrome takes. It takes them all, and leaves the tape
blank, when the word is one. -/
theorem decides_palindromes (machine : Machine) {word : String}
    (h : ∀ c ∈ word.toList, c = 'a' ∨ c = 'b') :
    ∃ preset loaded, withName "Palindrome" = .ok preset ∧
      machine.load { preset.definition with input := word } = .ok loaded ∧
      (loaded.run (attempts word.length)).2.isHalted = true ∧
      (∀ limit, attempts word.length ≤ limit →
        (word.toList = word.toList.reverse → (loaded.run limit).1 = .halts .accepted ∧
          (loaded.run limit).2.status = .accepted) ∧
        (word.toList ≠ word.toList.reverse → (loaded.run limit).1 = .halts .rejected ∧
          (loaded.run limit).2.status = .rejected)) ∧
      ∀ limit, (loaded.run limit).2.status = .accepted →
        (loaded.run limit).2.steps = attempts word.length ∧
          (loaded.run limit).2.state = "yes" ∧ IsErased (loaded.run limit).2.tape := by
  obtain ⟨loaded, hload, hnew, hrunning, hcourses⟩ :=
    palindrome.exists_load machine word
  refine ⟨_, loaded, withName_palindrome, hload, ?_⟩
  by_cases hpalindrome : word.toList.Palindrome
  · obtain ⟨count, last, hcourse, hcount, hstate, herased⟩ :=
      accepts_of_palindrome hpalindrome h 0 0
    rw [scene_zero] at hcourse
    rw [String.length_toList] at hcount
    rw [← hcount]
    have hafter := hcourses hcourse
    refine ⟨hafter.isHalted_run (Nat.le_refl _), fun limit hle => ⟨fun _ => ?_, fun hne => ?_⟩,
      fun limit haccepted => ?_⟩
    · exact ⟨hafter.halts_run hle, hafter.accepted_run hle⟩
    · exact absurd hpalindrome.reverse_eq.symm hne
    · have hle := hafter.le_of_isHalted hrunning (Machine.isHalted_of_accepted haccepted)
      have hscene := hafter.scene_run hle
      rw [hafter.steps_run hle, hnew, Nat.zero_add]
      rw [← hscene] at hstate herased
      exact ⟨rfl, hstate, herased⟩
  · obtain ⟨count, last, hcourse, hcount⟩ := rejects_of_not_palindrome hpalindrome h 0 0
    rw [scene_zero] at hcourse
    rw [String.length_toList] at hcount
    have hafter := hcourses hcourse
    refine ⟨hafter.isHalted_run hcount, fun limit hle => ⟨fun heq => ?_, fun _ => ?_⟩,
      fun limit haccepted => ?_⟩
    · exact absurd (.of_reverse_eq heq.symm) hpalindrome
    · have hreached := Nat.le_trans hcount hle
      exact ⟨hafter.halts_run hreached, hafter.rejected_run hreached⟩
    · have hle := hafter.le_of_isHalted hrunning (Machine.isHalted_of_accepted haccepted)
      rw [hafter.rejected_run hle] at haccepted
      cases haccepted

theorem decides_palindromes_abba :
    (∀ c ∈ "abba".toList, c = 'a' ∨ c = 'b') ∧
      ∃ preset loaded, withName "Palindrome" = .ok preset ∧
        Machine.new.load { preset.definition with input := "abba" } = .ok loaded ∧
        (loaded.run 15).2.isHalted = true ∧ (loaded.run 100).1 = .halts .accepted ∧
        (loaded.run 100).2.steps = 15 ∧ (loaded.run 100).2.state = "yes" ∧
        IsErased (loaded.run 100).2.tape := by
  have hletters : ∀ c ∈ "abba".toList, c = 'a' ∨ c = 'b' := by simp
  have hattempts : attempts "abba".length = 15 := by decide
  obtain ⟨preset, loaded, hpreset, hload, hhalted, hdecides, herases⟩ :=
    decides_palindromes .new hletters
  rw [hattempts] at hhalted hdecides herases
  obtain ⟨hhalts, haccepted⟩ := (hdecides 100 (by decide)).1 (by decide)
  exact ⟨hletters, preset, loaded, hpreset, hload, hhalted, hhalts, herases 100 haccepted⟩

end TapeMachine.Preset.Palindrome
