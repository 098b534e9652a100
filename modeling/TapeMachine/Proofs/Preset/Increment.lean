import TapeMachine.Proofs.Machine.Course
import TapeMachine.Proofs.Preset.Sheets
import Mathlib.Tactic.Ring

/-!
The preset that adds one to a binary number. The head goes to the end of the word and carries back
over the ones that stand there, which become zeros. What it then comes to, a zero or the blank in
front of the word, becomes a one.
-/

namespace TapeMachine.Preset.Increment

def program : Program :=
  ⟨"right", .ofList ["done"], .ofRules binaryIncrementSheet.rules⟩

def IsBit (c : Char) : Prop :=
  c = '0' ∨ c = '1'

/-! The rules. -/

section Rules

variable {symbol : Char}

theorem find?_right (h : IsBit symbol) :
    program.table.find? ⟨"right", symbol⟩ = some ⟨"right", symbol, .right⟩ := by
  rw [program, Table.find?_ofRules]
  rcases h with rfl | rfl <;> rfl

theorem find?_right_blank : program.table.find? ⟨"right", '_'⟩ = some ⟨"carry", '_', .left⟩ := by
  rw [program, Table.find?_ofRules]
  rfl

theorem find?_carry_one : program.table.find? ⟨"carry", '1'⟩ = some ⟨"carry", '0', .left⟩ := by
  rw [program, Table.find?_ofRules]
  rfl

theorem find?_carry (h : symbol = '0' ∨ symbol = '_') :
    program.table.find? ⟨"carry", symbol⟩ = some ⟨"done", '1', .left⟩ := by
  rw [program, Table.find?_ofRules]
  rcases h with rfl | rfl <;> rfl

theorem mem_finals {state : String} : state ∈ program.finals ↔ state = "done" := by
  rw [program, NameSet.mem_ofList, List.mem_singleton]

end Rules

/-! Binary numbers. -/

def digit (c : Char) : Nat :=
  if c = '1' then 1 else 0

/-- The number that a word of bits stands for. -/
def value (word : List Char) : Nat :=
  word.foldl (fun total c => 2 * total + digit c) 0

theorem value_concat (word : List Char) (c : Char) :
    value (word ++ [c]) = 2 * value word + digit c := by
  rw [value, List.foldl_concat, ← value]

theorem value_append_zeros (word : List Char) (count : Nat) :
    value (word ++ List.replicate count '0') = value word * 2 ^ count := by
  induction count with
  | zero => rw [List.replicate_zero, List.append_nil, Nat.pow_zero, Nat.mul_one]
  | succ count ih =>
      rw [List.replicate_succ', ← List.append_assoc, value_concat, ih, digit, if_neg (by decide)]
      ring

theorem value_append_ones (word : List Char) (count : Nat) :
    value (word ++ List.replicate count '1') + 1 = (value word + 1) * 2 ^ count := by
  induction count with
  | zero => rw [List.replicate_zero, List.append_nil, Nat.pow_zero, Nat.mul_one]
  | succ count ih =>
      rw [List.replicate_succ', ← List.append_assoc, value_concat, digit, if_pos rfl, Nat.pow_succ,
        ← Nat.mul_assoc, ← ih]
      ring

theorem replicate_one_ne (earlier later : List Char) (count : Nat) :
    List.replicate count '1' ≠ earlier ++ '0' :: later := by
  intro heq
  have hzero : '0' ∈ List.replicate count '1' := by
    rw [heq]
    exact List.mem_append_right _ List.mem_cons_self
  cases List.eq_of_mem_replicate hzero

/-- How many ones stand at the end of the word. -/
def trailingOnes (word : List Char) : Nat :=
  (word.reverse.takeWhile (· = '1')).length

/-- The word, the number of ones at its end, and the word that counting on makes of it: its last
zero becomes a one and the ones behind it zeros. Without a zero there is a one in front. -/
inductive CountsOn : List Char → Nat → List Char → Prop where
  | ones (count : Nat) :
      CountsOn (List.replicate count '1') count ('1' :: List.replicate count '0')
  | zero (earlier : List Char) (count : Nat) :
      CountsOn (earlier ++ '0' :: List.replicate count '1') count
        (earlier ++ '1' :: List.replicate count '0')

theorem exists_countsOn {word : List Char} (h : ∀ c ∈ word, IsBit c) :
    ∃ count next, CountsOn word count next := by
  induction word using List.reverseRecOn with
  | nil => exact ⟨0, _, .ones 0⟩
  | append_singleton word c ih =>
      obtain ⟨hword, hc⟩ := List.forall_mem_append.1 h
      rcases List.forall_mem_singleton.1 hc with rfl | rfl
      · exact ⟨0, _, .zero word 0⟩
      · obtain ⟨count, next, hcounts⟩ := ih hword
        cases hcounts with
        | ones =>
            rw [← List.replicate_succ']
            exact ⟨count + 1, _, .ones (count + 1)⟩
        | zero earlier =>
            rw [List.append_assoc, List.cons_append, ← List.replicate_succ']
            exact ⟨count + 1, _, .zero earlier (count + 1)⟩

namespace CountsOn

variable {word next : List Char} {count : Nat} (h : CountsOn word count next)

include h

theorem trailingOnes_eq : trailingOnes word = count := by
  rw [trailingOnes]
  cases h with
  | ones => simp
  | zero earlier => simp

theorem count_le_length : count ≤ word.length := by
  cases h with
  | ones => simp
  | zero earlier =>
      rw [List.length_append, List.length_cons, List.length_replicate]
      omega

theorem value_eq : value next = value word + 1 := by
  cases h with
  | ones =>
      have hones := value_append_ones [] count
      have hzeros := value_append_zeros ['1'] count
      rw [List.nil_append] at hones
      rw [List.singleton_append] at hzeros
      rw [hones, hzeros]
      rfl
  | zero earlier =>
      have hones := value_append_ones (earlier ++ ['0']) count
      have hzeros := value_append_zeros (earlier ++ ['1']) count
      rw [List.append_assoc, List.singleton_append, value_concat, digit, if_neg (by decide)] at hones
      rw [List.append_assoc, List.singleton_append, value_concat, digit, if_pos rfl] at hzeros
      rw [hones, hzeros, Nat.add_zero]

theorem length_eq : next.length = if '0' ∈ word then word.length else word.length + 1 := by
  cases h with
  | ones => simp
  | zero earlier => simp

theorem isBit (hword : ∀ c ∈ word, IsBit c) : ∀ c ∈ next, IsBit c := by
  have hzeros : ∀ c ∈ '1' :: List.replicate count '0', IsBit c :=
    List.forall_mem_cons.2 ⟨.inr rfl, fun c hc => .inl (List.eq_of_mem_replicate hc)⟩
  cases h with
  | ones => exact hzeros
  | zero earlier => exact List.forall_mem_append.2 ⟨(List.forall_mem_append.1 hword).1, hzeros⟩

/-- Nothing changes before a zero, and so before the last one. -/
theorem prefix_of_zero {earlier later : List Char} (hword : word = earlier ++ '0' :: later) :
    earlier <+: next := by
  cases h with
  | ones => exact absurd hword (replicate_one_ne earlier later count)
  | zero front =>
      rcases List.append_eq_append_iff.1 hword with ⟨between, rfl, hrest⟩ | ⟨between, rfl, -⟩
      · cases between with
        | nil =>
            rw [List.append_nil]
            exact List.prefix_append _ _
        | cons c between =>
            exact absurd (List.cons.inj hrest).2 (replicate_one_ne between later count)
      · rw [List.append_assoc]
        exact List.prefix_append _ _

end CountsOn

/-! The course. -/

/-- The carry goes over the ones to what stands before them. -/
theorem halts_carry {front : List Char} {count : Nat}
    (hbits : ∀ c ∈ front ++ List.replicate count '1', IsBit c)
    (hfront : front.reverse.head?.getD '_' = '0' ∨ front.reverse.head?.getD '_' = '_') :
    program.Halts ((front ++ List.replicate count '1').length + 1 + count) .accepted
      ⟨.heading '_' (front ++ List.replicate count '1') [] .right, "right"⟩
      ⟨.heading '_' front.reverse.tail ('1' :: (List.replicate count '0' ++ ['_'])) .left, "done"⟩ := by
  have hright := Program.leads_scan (fun c hc => find?_right (hbits c hc))
    (by rw [mem_finals]; decide) '_' [] []
  have hturn := Program.leads_about find?_right_blank (by rw [mem_finals]; decide)
    (rfl : ([] : List Char).head?.getD '_' = '_') (by decide : Direction.left ≠ .right)
    (front ++ List.replicate count '1').reverse
  have hones : ∀ c ∈ List.replicate count '1',
      program.table.find? ⟨"carry", c⟩ = some ⟨"carry", '0', .left⟩ := by
    intro c hc
    rw [List.eq_of_mem_replicate hc, find?_carry_one]
  have hcarry := Program.leads_scan hones (by rw [mem_finals]; decide) '_' front.reverse ['_']
  have hend := Program.halts_onward (find?_carry hfront) (mem_finals.2 rfl) rfl
    (List.replicate count '0' ++ ['_'])
  rw [List.append_nil, List.append_nil, List.map_id'] at hright
  rw [List.reverse_append, List.reverse_replicate] at hright hturn
  rw [List.length_replicate, List.map_replicate, List.reverse_replicate] at hcarry
  have hcourse := (hright.trans (hturn.trans hcarry)).halts hend
  rwa [Nat.add_zero, ← Nat.add_assoc] at hcourse

theorem halts_of_countsOn {word next : List Char} {count : Nat} (h : CountsOn word count next)
    (hbits : ∀ c ∈ word, IsBit c) : ∃ last,
      program.Halts (word.length + 1 + count) .accepted ⟨.heading '_' word [] .right, "right"⟩ last ∧
        last.tape.cells.toList = next ++ ['_'] := by
  cases h with
  | ones =>
      have hcourse := @halts_carry [] count hbits (.inr rfl)
      exact ⟨_, hcourse, by simp [Tape.heading]⟩
  | zero earlier =>
      have hword : earlier ++ '0' :: List.replicate count '1' =
          (earlier ++ ['0']) ++ List.replicate count '1' := by
        rw [List.append_assoc, List.singleton_append]
      rw [hword] at hbits ⊢
      have hcourse := halts_carry hbits (.inl (by rw [List.reverse_concat]; rfl))
      exact ⟨_, hcourse, by simp [Tape.heading]⟩

/-! The machine. -/

/-- The preset, loaded with any word of bits, accepts after one step for each bit and each one at the
word's end, and two more. It leaves a word that stands for the next number, followed by one blank.
The two words are alike before the last zero, and only a word without a zero becomes longer. -/
theorem increments (machine : Machine) {word : String} (h : ∀ c ∈ word.toList, c = '0' ∨ c = '1') :
    ∃ preset loaded next, withName "Binary increment" = .ok preset ∧
      machine.load { preset.definition with input := word } = .ok loaded ∧
      (∀ limit < word.length + trailingOnes word.toList + 2, (loaded.run limit).1 = .goesOn) ∧
      (∀ limit, word.length + trailingOnes word.toList + 2 ≤ limit →
        (loaded.run limit).1 = .halts .accepted ∧
        (loaded.run limit).2.status = .accepted ∧
        (loaded.run limit).2.steps = word.length + trailingOnes word.toList + 2 ∧
        (loaded.run limit).2.tape.cells.toList = next ++ ['_']) ∧
      (∀ limit, 2 * word.length + 2 ≤ limit →
        (loaded.run limit).1 = .halts .accepted ∧ (loaded.run limit).2.status = .accepted) ∧
      (∀ c ∈ next, c = '0' ∨ c = '1') ∧
      value next = value word.toList + 1 ∧
      next.length = (if '0' ∈ word.toList then word.length else word.length + 1) ∧
      ∀ earlier later, word.toList = earlier ++ '0' :: later → earlier <+: next := by
  obtain ⟨loaded, hload, hnew, -, hcourses⟩ :=
    binaryIncrement.exists_load machine word
  obtain ⟨count, next, hcounts⟩ := exists_countsOn h
  obtain ⟨last, hcourse, hcells⟩ := halts_of_countsOn hcounts h
  have hafter := hcourses hcourse
  have hlength := hcounts.length_eq
  have hcount := hcounts.count_le_length
  rw [String.length_toList] at hafter hlength hcount
  rw [hcounts.trailingOnes_eq]
  refine ⟨_, loaded, next, withName_binaryIncrement, hload, fun limit hlt => ?_,
    fun limit hle => ?_, fun limit hle => ?_, hcounts.isBit h, hcounts.value_eq, hlength,
    fun earlier later => hcounts.prefix_of_zero⟩
  · exact Machine.goesOn_of_le hafter.goesOn (by omega)
  · have hreached : word.length + 1 + count + 1 ≤ limit := by omega
    refine ⟨hafter.halts_run hreached, hafter.accepted_run hreached, ?_, ?_⟩
    · rw [hafter.steps_run hreached, hnew, Step.applied, Bool.toNat_true]
      omega
    · rw [← hafter.scene_run hreached] at hcells
      exact hcells
  · have hreached : word.length + 1 + count + 1 ≤ limit := by omega
    exact ⟨hafter.halts_run hreached, hafter.accepted_run hreached⟩

theorem increments_eleven :
    (∀ c ∈ "1011".toList, c = '0' ∨ c = '1') ∧
      ∃ preset loaded next, withName "Binary increment" = .ok preset ∧
        Machine.new.load { preset.definition with input := "1011" } = .ok loaded ∧
        (loaded.run 7).1 = .goesOn ∧ (loaded.run 10).1 = .halts .accepted ∧
        (loaded.run 10).2.steps = 8 ∧ (loaded.run 10).2.tape.cells.toList = next ++ ['_'] ∧
        value next = 12 ∧ next.length = 4 ∧ ['1'] <+: next := by
  have hbits : ∀ c ∈ "1011".toList, c = '0' ∨ c = '1' := by simp
  have hsteps : "1011".length + trailingOnes "1011".toList + 2 = 8 := by decide
  obtain ⟨preset, loaded, next, hpreset, hload, hbefore, hafter, -, -, hvalue, hlength, hprefix⟩ :=
    increments .new hbits
  rw [hsteps] at hbefore hafter
  obtain ⟨hhalts, -, hcount, hcells⟩ := hafter 10 (by decide)
  exact ⟨hbits, preset, loaded, next, hpreset, hload, hbefore 7 (by decide), hhalts, hcount, hcells,
    hvalue, hlength, hprefix ['1'] ['1', '1'] rfl⟩

end TapeMachine.Preset.Increment
