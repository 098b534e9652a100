import TapeMachine.Proofs.Source.RuleReading

/-!
Reading tables. A table is read exactly when every line can be read as a rule. What holds of the
empty table and stays when a rule that was read is put in holds of every table that is read.
-/

namespace TapeMachine

open Source

theorem Source.TableReading.cons_eq_ok {number : Nat} {table result : Table}
    {first : Except SyntaxError Rule} {goOn : Rule → TableReading}
    (h : (TableReading.cons number table first goOn).table = .ok result) :
    ∃ rule, first = .ok rule ∧ (goOn rule).table = .ok result := by
  cases first with
  | error error => contradiction
  | ok rule =>
      refine ⟨rule, rfl, ?_⟩
      simp only [TableReading.cons] at h
      split at h
      · exact h
      · exact h

theorem Source.TableReading.table_cons_ok (number : Nat) (table : Table) (rule : Rule)
    (goOn : Rule → TableReading) :
    (TableReading.cons number table (.ok rule) goOn).table = (goOn rule).table := by
  simp only [TableReading.cons]
  split
  · rfl
  · rfl

/-! The lines that can be read. -/

theorem Source.TableReading.ofLines_of_readable {lines : List String}
    (h : ∀ line ∈ lines, ∃ rule, readRule line.toList = .ok rule) (number : Nat) (table : Table) :
    ∃ result, (TableReading.ofLines number table lines).table = .ok result := by
  induction lines generalizing number table with
  | nil => exact ⟨table, rfl⟩
  | cons line lines ih =>
      obtain ⟨rule, hread⟩ := h line List.mem_cons_self
      rw [TableReading.ofLines, hread, table_cons_ok]
      exact ih (fun other hother => h other (List.mem_cons_of_mem line hother)) _ _

theorem Source.TableReading.readable_of_ofLines {number : Nat} {table result : Table}
    {lines : List String} (h : (TableReading.ofLines number table lines).table = .ok result) :
    ∀ line ∈ lines, ∃ rule, readRule line.toList = .ok rule := by
  induction lines generalizing number table with
  | nil => exact nofun
  | cons line lines ih =>
      obtain ⟨rule, hread, hlater⟩ := TableReading.cons_eq_ok h
      intro other hother
      rcases List.mem_cons.1 hother with rfl | hother
      · exact ⟨rule, hread⟩
      · exact ih hlater other hother

theorem Source.readTable_isOk_iff {lines : List String} :
    (∃ table, (readTable lines).table = .ok table) ↔
      ∀ line ∈ lines, ∃ rule, readRule line.toList = .ok rule :=
  ⟨fun ⟨_, h⟩ => TableReading.readable_of_ofLines h,
    fun h => TableReading.ofLines_of_readable h 1 .empty⟩

theorem Source.readTable_of_unreadable {lines : List String} {line : String} (hline : line ∈ lines)
    {error : SyntaxError} (hread : readRule line.toList = .error error) :
    ∃ refusal, (readTable lines).table = .error refusal := by
  cases htable : (readTable lines).table with
  | error refusal => exact ⟨refusal, rfl⟩
  | ok table =>
      obtain ⟨rule, hrule⟩ := readTable_isOk_iff.1 ⟨table, htable⟩ line hline
      rw [hread] at hrule
      cases hrule

/-! What holds of the tables that are read. -/

section Induction

variable {Holds : Table → Prop}
  (hinsert : ∀ table line rule, Holds table → readRule line = .ok rule → Holds (table.insert rule))

include hinsert

theorem Source.TableReading.ofLines_induction {number : Nat} {table result : Table}
    {lines : List String} (htable : Holds table)
    (h : (TableReading.ofLines number table lines).table = .ok result) : Holds result := by
  induction lines generalizing number table with
  | nil =>
      cases h
      exact htable
  | cons line lines ih =>
      obtain ⟨rule, hread, hlater⟩ := TableReading.cons_eq_ok h
      exact ih (hinsert table line.toList rule htable hread) hlater

theorem Source.readTable_induction (hempty : Holds .empty) {table : Table} {lines : List String}
    (h : (readTable lines).table = .ok table) : Holds table :=
  TableReading.ofLines_induction hinsert hempty h

end Induction

namespace Table

/-- Every rule names the state it is for and the state it leads to. -/
def NamesStates (table : Table) : Prop :=
  ∀ rule ∈ table.rules, rule.situation.state ≠ "" ∧ rule.action.next ≠ ""

theorem namesStates_empty : empty.NamesStates :=
  fun _ h => nomatch h

theorem NamesStates.insert {table : Table} (h : table.NamesStates) {rule : Rule}
    (hrule : rule.situation.state ≠ "" ∧ rule.action.next ≠ "") :
    (table.insert rule).NamesStates := by
  intro other hmem
  rcases mem_of_mem_insertRule hmem with rfl | hmem
  · exact hrule
  · exact h other hmem

/-- No rule is for the empty state. -/
theorem NamesStates.find?_eq_none {table : Table} (h : table.NamesStates) {situation : Situation}
    (hempty : situation.state = "") : table.find? situation = none := by
  rw [find?, Option.map_eq_none_iff, List.find?_eq_none]
  intro rule hmem heq
  exact (h rule hmem).1 (of_decide_eq_true heq ▸ hempty)

end Table

theorem Source.namesStates_readTable {table : Table} {lines : List String}
    (h : (readTable lines).table = .ok table) : table.NamesStates :=
  readTable_induction (fun _ _ _ htable hread => htable.insert (states_ne_of_readRule hread))
    Table.namesStates_empty h

end TapeMachine
