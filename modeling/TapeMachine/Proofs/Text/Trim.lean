import TapeMachine.Text.Blank
import Mathlib.Data.List.DropRight

/-!
What trimming leaves has no blank at either end.
-/

namespace TapeMachine.Text

/-- No blank character stands at either end. -/
structure IsTrimmed (text : List Char) : Prop where
  first : ∀ c ∈ text.head?, isBlank c = false
  last : ∀ c ∈ text.getLast?, isBlank c = false

theorem trim_eq (text : List Char) : trim text = (text.dropWhile isBlank).rdropWhile isBlank :=
  rfl

theorem isTrimmed_trim (text : List Char) : IsTrimmed (trim text) := by
  constructor
  · intro c hc
    obtain ⟨rest, hrest⟩ := List.rdropWhile_prefix isBlank (text.dropWhile isBlank)
    have hhead := List.head?_dropWhile_not isBlank text
    rw [trim_eq] at hc
    rw [← hrest, List.head?_append, Option.mem_def.1 hc] at hhead
    exact hhead
  · intro c hc
    have hne : trim text ≠ [] := by
      rintro hnil
      simp [hnil] at hc
    have hlast := List.rdropWhile_last_not isBlank (text.dropWhile isBlank) hne
    rw [List.getLast?_eq_getLast_of_ne_nil hne] at hc
    obtain rfl := Option.some.inj (Option.mem_def.1 hc)
    exact Bool.not_eq_true _ |>.mp hlast

end TapeMachine.Text
