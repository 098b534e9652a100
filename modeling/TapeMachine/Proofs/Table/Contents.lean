import TapeMachine.Table
import Mathlib.Data.Finset.Card
import Mathlib.Data.List.Induction

/-!
What a table holds is what it answers: its rules are those that it gives for their situations, so
tables that answer alike are the same one. The table of a list of rules answers with the last one
for a situation, and the order of rules for different situations is of no account.
-/

namespace TapeMachine

/-- No two of the rules are for one situation. -/
def Rule.Distinct (rules : List Rule) : Prop :=
  (rules.map (·.situation)).Nodup

/-- Of rules for different situations, the one that is found is the only one there is. -/
theorem Rule.Distinct.find?_eq_some_iff {rules : List Rule} (h : Rule.Distinct rules)
    {situation : Situation} {rule : Rule} :
    rules.find? (·.situation = situation) = some rule ↔
      rule ∈ rules ∧ rule.situation = situation := by
  constructor
  · intro hfind
    exact ⟨List.mem_of_find?_eq_some hfind, by simpa using List.find?_some hfind⟩
  · rintro ⟨hmem, rfl⟩
    cases hfind : rules.find? (·.situation = rule.situation) with
    | none => exact absurd (decide_eq_true rfl) (List.find?_eq_none.1 hfind rule hmem)
    | some found =>
        have hsame : found.situation = rule.situation := by simpa using List.find?_some hfind
        rw [List.inj_on_of_nodup_map h (List.mem_of_find?_eq_some hfind) hmem hsame]

theorem Rule.Distinct.reverse {rules : List Rule} (h : Rule.Distinct rules) :
    Rule.Distinct rules.reverse := by
  rw [Rule.Distinct, List.map_reverse, List.nodup_reverse]
  exact h

namespace Table

variable {table : Table} {situation : Situation}

theorem distinct_rules (table : Table) : Rule.Distinct table.rules := by
  rw [Rule.Distinct, List.Nodup, List.pairwise_map]
  refine table.sorted.imp fun hlt heq => ?_
  rw [heq] at hlt
  exact Situation.lt_irrefl _ hlt

theorem find?_eq_some_iff {action : Action} :
    table.find? situation = some action ↔ ⟨situation, action⟩ ∈ table.rules := by
  rw [find?, Option.map_eq_some_iff]
  simp only [table.distinct_rules.find?_eq_some_iff]
  constructor
  · rintro ⟨rule, ⟨hmem, rfl⟩, rfl⟩
    exact hmem
  · exact fun hmem => ⟨_, ⟨hmem, rfl⟩, rfl⟩

theorem mem_situations :
    situation ∈ table.rules.map (·.situation) ↔ (table.find? situation).isSome = true := by
  rw [find?, Option.isSome_map, List.find?_isSome]
  simp only [decide_eq_true_eq, List.mem_map]

/-- Tables that answer alike are equal. -/
theorem eq_of_find?_eq {other : Table}
    (h : ∀ situation, table.find? situation = other.find? situation) : table = other := by
  have hsame : ∀ rule, rule ∈ table.rules ↔ rule ∈ other.rules := by
    rintro ⟨situation, action⟩
    rw [← find?_eq_some_iff, ← find?_eq_some_iff, h]
  have hperm := (List.perm_ext_iff_of_nodup table.distinct_rules.of_map
    other.distinct_rules.of_map).2 hsame
  have hrules := hperm.eq_of_pairwise
    (fun _ _ _ _ hlt hgt => absurd (Situation.lt_trans hlt hgt) (Situation.lt_irrefl _))
    table.sorted other.sorted
  obtain ⟨rules, sorted⟩ := table
  obtain ⟨others, sorted'⟩ := other
  cases hrules
  rfl

/-- The states of a table are those that its answers are for or lead to. -/
theorem mem_states {name : String} : name ∈ table.states ↔
    ∃ situation action, table.find? situation = some action ∧
      (name = situation.state ∨ name = action.next) := by
  simp only [states, NameSet.mem_ofList, List.mem_flatMap, List.mem_cons, List.not_mem_nil, or_false,
    find?_eq_some_iff]
  constructor
  · rintro ⟨⟨situation, action⟩, hmem, hname⟩
    exact ⟨situation, action, hmem, hname⟩
  · rintro ⟨situation, action, hmem, hname⟩
    exact ⟨⟨situation, action⟩, hmem, hname⟩

/-- The table of the rules. Later ones come over earlier ones. -/
def ofRules (rules : List Rule) : Table :=
  rules.foldl insert empty

theorem ofRules_concat (rules : List Rule) (rule : Rule) :
    ofRules (rules ++ [rule]) = (ofRules rules).insert rule :=
  List.foldl_append

/-- The last rule for a situation says what the table answers. -/
theorem find?_ofRules (rules : List Rule) (situation : Situation) :
    (ofRules rules).find? situation =
      (rules.reverse.find? (·.situation = situation)).map (·.action) := by
  induction rules using List.reverseRecOn with
  | nil => rfl
  | append_singleton rules rule ih =>
      rw [ofRules_concat, find?_insert, ih, List.reverse_concat, List.find?_cons]
      by_cases h : rule.situation = situation
      · simp [h]
      · simp [h]

/-- The table holds one rule for each situation that rules were for. -/
theorem size_ofRules (rules : List Rule) :
    (ofRules rules).size = (rules.map (·.situation)).toFinset.card := by
  have hsame : ((ofRules rules).rules.map (·.situation)).toFinset =
      (rules.map (·.situation)).toFinset := by
    ext situation
    rw [List.mem_toFinset, List.mem_toFinset, mem_situations, find?_ofRules, Option.isSome_map,
      List.find?_isSome]
    simp only [List.mem_reverse, decide_eq_true_eq, List.mem_map]
  rw [← hsame, List.toFinset_card_of_nodup (ofRules rules).distinct_rules, List.length_map, size]

/-- Rules for different situations give the same table in any order. -/
theorem ofRules_eq_of_perm {rules reordered : List Rule} (h : Rule.Distinct rules)
    (hperm : reordered.Perm rules) : ofRules reordered = ofRules rules := by
  have hdistinct : Rule.Distinct reordered := (hperm.map _).nodup_iff.2 h
  refine eq_of_find?_eq fun situation => ?_
  rw [find?_ofRules, find?_ofRules]
  congr 1
  ext rule
  rw [hdistinct.reverse.find?_eq_some_iff, h.reverse.find?_eq_some_iff, List.mem_reverse,
    List.mem_reverse, hperm.mem_iff]

end Table

end TapeMachine
