import TapeMachine.Preset.Basic

/-!
Looking up presets. What is found at an index or under a name is one of them.
-/

namespace TapeMachine.Preset

-- Equations of functions: comparing the values would have the kernel read the presets.

theorem atIndex_eq_elim :
    atIndex = fun index => all[index]?.elim (.error (.presetIndex index)) .ok := by
  delta atIndex
  funext index
  generalize all[index]? = found
  cases found <;> rfl

theorem withName_eq_elim :
    withName = fun name =>
      (all.find? fun preset => sameName preset.definition.displayName name).elim
        (.error (.presetName name names)) .ok := by
  delta withName
  funext name
  generalize List.find? _ _ = found
  cases found <;> rfl

theorem exists_atIndex {index : Nat} (h : index < all.length) :
    ∃ preset ∈ all, atIndex index = .ok preset := by
  refine ⟨all[index], List.getElem_mem h, ?_⟩
  simp only [atIndex_eq_elim, List.getElem?_eq_getElem h, Option.elim_some]

theorem withName_of_find? {name : String} {preset : Preset}
    (h : all.find? (sameName ·.definition.displayName name) = some preset) :
    withName name = .ok preset := by
  simp only [withName_eq_elim, h, Option.elim_some]

theorem mem_all_of_withName {name : String} {preset : Preset} (h : withName name = .ok preset) :
    preset ∈ all := by
  rw [withName_eq_elim] at h
  generalize all = presets at h ⊢
  cases hfound : presets.find? fun preset => sameName preset.definition.displayName name with
  | none =>
      simp only [hfound, Option.elim_none] at h
      cases h
  | some found =>
      simp only [hfound, Option.elim_some] at h
      cases h
      exact List.mem_of_find?_eq_some hfound

end TapeMachine.Preset
