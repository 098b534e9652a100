/-!
Chains of steps that may fail. A chain succeeds exactly when each of its steps does.
-/

namespace TapeMachine

variable {Error Value Result : Type}

theorem bind_eq_ok {first : Except Error Value} {next : Value → Except Error Result}
    {result : Result} :
    first >>= next = .ok result ↔ ∃ value, first = .ok value ∧ next value = .ok result := by
  cases first <;> simp [bind, Except.bind]

theorem ok_bind (value : Value) (next : Value → Except Error Result) :
    Except.ok value >>= next = next value :=
  rfl

theorem pure_eq_ok {value result : Value} :
    (pure value : Except Error Value) = .ok result ↔ value = result := by
  simp [pure, Except.pure]

theorem toBool_eq_true {first : Except Error Value} :
    first.toBool = true ↔ ∃ value, first = .ok value := by
  cases first <;> simp [Except.toBool]

theorem map_eq_ok {first : Except Error Value} {next : Value → Result} {result : Result} :
    first.map next = .ok result ↔ ∃ value, first = .ok value ∧ next value = result := by
  cases first <;> simp [Except.map]

theorem map_eq_error {first : Except Error Value} {next : Value → Result} {error : Error} :
    first.map next = .error error ↔ first = .error error := by
  cases first <;> simp [Except.map]

theorem mapError_eq_ok {Other : Type} {first : Except Error Value} {fault : Error → Other}
    {value : Value} : first.mapError fault = .ok value ↔ first = .ok value := by
  cases first with
  | error error => exact iff_of_false nofun nofun
  | ok found =>
      change Except.ok found = .ok value ↔ _
      rw [Except.ok.injEq, Except.ok.injEq]

theorem mapError_map_eq_ok {Other : Type} {first : Except Error Value} {next : Value → Result}
    {fault : Error → Other} {result : Result} :
    (first.map next).mapError fault = .ok result ↔ ∃ value, first = .ok value ∧ next value = result := by
  rw [mapError_eq_ok, map_eq_ok]

theorem exists_mapError_map_eq_ok {Other : Type} {first : Except Error Value}
    {next : Value → Result} {fault : Error → Other} :
    (∃ result, (first.map next).mapError fault = .ok result) ↔ ∃ value, first = .ok value := by
  simp only [mapError_map_eq_ok]
  exact ⟨fun ⟨_, value, hvalue, _⟩ => ⟨value, hvalue⟩, fun ⟨value, hvalue⟩ => ⟨_, value, hvalue, rfl⟩⟩

end TapeMachine
