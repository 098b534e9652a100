import TapeMachine.NameSet
import TapeMachine.Rule

/-!
Transition tables. A table holds at most one action for each situation, and a later rule takes the
place of an earlier one. Its rules are kept in increasing order of their situations, so tables that
answer every look-up alike are equal.
-/

namespace TapeMachine

def insertRule (rule : Rule) : List Rule → List Rule
  | [] => [rule]
  | first :: rest =>
      if rule.situation < first.situation then rule :: first :: rest
      else if rule.situation = first.situation then rule :: rest
      else first :: insertRule rule rest

theorem mem_of_mem_insertRule {rule other : Rule} {rules : List Rule}
    (h : other ∈ insertRule rule rules) : other = rule ∨ other ∈ rules := by
  induction rules with
  | nil => simpa [insertRule] using h
  | cons first rest ih => grind [insertRule]

theorem pairwise_insertRule {rule : Rule} {rules : List Rule}
    (h : rules.Pairwise (·.situation < ·.situation)) :
    (insertRule rule rules).Pairwise (·.situation < ·.situation) := by
  induction rules with
  | nil => simp [insertRule]
  | cons first rest ih =>
      rw [List.pairwise_cons] at h
      rw [insertRule]
      split
      · next hlt =>
          refine List.pairwise_cons.2 ⟨fun other hmem => ?_, List.pairwise_cons.2 h⟩
          rcases List.mem_cons.1 hmem with rfl | hrest
          · exact hlt
          · exact Situation.lt_trans hlt (h.1 other hrest)
      · next hlt =>
          split
          · next heq => exact List.pairwise_cons.2 ⟨fun other hmem => heq ▸ h.1 other hmem, h.2⟩
          · next hne =>
              refine List.pairwise_cons.2 ⟨fun other hmem => ?_, ih h.2⟩
              rcases mem_of_mem_insertRule hmem with rfl | hrest
              · exact Situation.lt_of_not_lt hlt hne
              · exact h.1 other hrest

theorem find?_insertRule (rule : Rule) (situation : Situation) (rules : List Rule) :
    (insertRule rule rules).find? (·.situation = situation) =
      if rule.situation = situation then some rule else rules.find? (·.situation = situation) := by
  induction rules with
  | nil => grind [insertRule]
  | cons first rest ih => grind [insertRule]

structure Table where
  rules : List Rule
  sorted : rules.Pairwise (·.situation < ·.situation)
deriving DecidableEq

namespace Table

def empty : Table := ⟨[], .nil⟩

instance : Inhabited Table := ⟨empty⟩

def insert (table : Table) (rule : Rule) : Table :=
  ⟨insertRule rule table.rules, pairwise_insertRule table.sorted⟩

def find? (table : Table) (situation : Situation) : Option Action :=
  (table.rules.find? (·.situation = situation)).map (·.action)

/-- The rule put in last answers for its situation, and no other answer changes. -/
theorem find?_insert (table : Table) (rule : Rule) (situation : Situation) :
    (table.insert rule).find? situation =
      if rule.situation = situation then some rule.action else table.find? situation := by
  simp only [find?, insert, find?_insertRule]
  split <;> rfl

def size (table : Table) : Nat :=
  table.rules.length

/-- Every state on either side of a rule. -/
def states (table : Table) : NameSet :=
  .ofList (table.rules.flatMap fun rule => [rule.situation.state, rule.action.next])

end Table

end TapeMachine
