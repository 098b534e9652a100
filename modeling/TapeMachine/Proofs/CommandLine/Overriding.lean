import TapeMachine.CommandLine.Response
import TapeMachine.Proofs.Definition.NormalForm
import TapeMachine.Proofs.Preset.Lookup

/-!
Definitions changed by options. A definition that is started from is in normal form, so changing some
of its fields gives what a form would that has the given fields and the others written back. But a
form refuses an initial state or rules that come out empty, and the change does not.
-/

namespace TapeMachine.CommandLine

/-! The definition that is started from. -/

theorem isNormal_orNamed {definition : Definition} (h : definition.IsNormal) (path : String) :
    (definition.orNamed path).IsNormal := by
  rw [Definition.orNamed]
  split
  · exact h.setName _
  · exact h

theorem isNormal_of_ofFile {path : String} {content : Except ReadProblem ByteArray}
    {definition : Definition} (h : Definition.ofFile path content = .ok definition) :
    definition.IsNormal := by
  rw [Definition.ofFile, bind_eq_ok] at h
  obtain ⟨bytes, -, h⟩ := h
  split at h
  · cases h
  · simp only [bind_eq_ok, pure_eq_ok] at h
    obtain ⟨text, -, read, hread, rfl⟩ := h
    exact isNormal_orNamed (Definition.isNormal_of_ofText hread) path

theorem isNormal_of_mem_filterMap {sources : List String} {preset : Preset}
    (h : preset ∈ sources.filterMap Preset.ofSource) : preset.definition.IsNormal := by
  rw [List.mem_filterMap] at h
  obtain ⟨source, -, hsource⟩ := h
  unfold Preset.ofSource at hsource
  split at hsource
  · next definition hread =>
      cases hsource
      exact Definition.isNormal_of_ofText hread
  · cases hsource

theorem isNormal_of_withName {name : String} {preset : Preset}
    (h : Preset.withName name = .ok preset) : preset.definition.IsNormal := by
  have hmem := Preset.mem_all_of_withName h
  rw [Preset.all] at hmem
  exact isNormal_of_mem_filterMap hmem

theorem isNormal_of_base {options : Options} {around : Surroundings} {base : Definition}
    (h : options.base around = .ok (some base)) : base.IsNormal := by
  rw [Options.base] at h
  split at h
  · obtain ⟨definition, hread, hsome⟩ := map_eq_ok.1 h
    cases hsome
    exact isNormal_of_ofFile hread
  · obtain ⟨preset, hread, hsome⟩ := map_eq_ok.1 h
    cases hsome
    exact isNormal_of_withName (mapError_eq_ok.1 hread)
  · obtain ⟨definition, hread, hsome⟩ := map_eq_ok.1 h
    obtain ⟨text, -, hread⟩ := bind_eq_ok.1 hread
    cases hsome
    exact Definition.isNormal_of_ofText hread
  · cases h

/-! The change. -/

namespace Overrides

/-- The given field texts put over those of a form. -/
def putOver (overrides : Overrides) (fields : Fields) : Fields :=
  ⟨overrides.input.getD fields.input, overrides.initial.getD fields.initial,
    overrides.finals.getD fields.finals, overrides.blank.getD fields.blank,
    overrides.rules.getD fields.rules⟩

/-- A given initial state is not blank, and given rules hold one at least. -/
structure IsComplete (overrides : Overrides) : Prop where
  initial : ∀ text ∈ overrides.initial, Text.trimmed text ≠ ""
  rules : ∀ text ∈ overrides.rules, ruleLines text ≠ []

theorem elim_eq_getD {Part : Type} {read : String → Part} {written : String} {kept : Part}
    (h : read written = kept) (given : Option String) :
    given.elim kept read = read (given.getD written) := by
  cases given with
  | none => exact h.symm
  | some text => rfl

theorem forall_mem_iff_getD (good : String → Prop) {written : String} (h : good written)
    (given : Option String) : (∀ text ∈ given, good text) ↔ good (given.getD written) := by
  cases given with
  | none => exact iff_of_true nofun h
  | some text => simp

variable {overrides : Overrides} {base : Definition}

/-- A part that is not given is read again from what it is written back to. -/
theorem apply_eq_map (h : base.IsNormal) :
    overrides.apply base =
      (readBlank (overrides.putOver base.written).blank).map fun blank =>
        ⟨base.name, (overrides.putOver base.written).input,
          Text.trimmed (overrides.putOver base.written).initial,
          stateNames (overrides.putOver base.written).finals, blank,
          ruleLines (overrides.putOver base.written).rules⟩ := by
  have hinitial := elim_eq_getD h.initial_trimmed overrides.initial
  have hfinals := elim_eq_getD (stateNames_joinNames h.finals) overrides.finals
  have hblank := elim_eq_getD (readBlank_blankText h.blank) overrides.blank
  have hrules := elim_eq_getD (ruleLines_joinLines_of_isRuleLine h.rules) overrides.rules
  rw [apply, hinitial, hfinals, hblank, hrules]
  simp only [putOver, Definition.written]
  cases readBlank (overrides.blank.getD (blankText base.blank)) <;> rfl

theorem isComplete_iff (h : base.IsNormal) :
    overrides.IsComplete ↔
      Text.trimmed (overrides.putOver base.written).initial ≠ "" ∧
        ruleLines (overrides.putOver base.written).rules ≠ [] := by
  have hinitial : Text.trimmed base.initial ≠ "" := by
    rw [h.initial_trimmed]
    exact h.initial_ne
  have hrules : ruleLines (Text.joinLines base.rules) ≠ [] := by
    rw [ruleLines_joinLines_of_isRuleLine h.rules]
    exact h.rules_ne
  have hgivenInitial :=
    forall_mem_iff_getD (Text.trimmed · ≠ "") hinitial overrides.initial
  have hgivenRules := forall_mem_iff_getD (ruleLines · ≠ []) hrules overrides.rules
  constructor
  · exact fun hcomplete => ⟨hgivenInitial.1 hcomplete.initial, hgivenRules.1 hcomplete.rules⟩
  · exact fun hboth => ⟨hgivenInitial.2 hboth.1, hgivenRules.2 hboth.2⟩

end Overrides

/-! What the options select. -/

namespace Options

variable {options : Options} {around : Surroundings} {base : Definition} {overrides : Overrides}

theorem definition_eq_apply (hbase : options.base around = .ok (some base))
    (hoverrides : options.overrides around = .ok overrides) :
    options.definition around = (overrides.apply base).mapError .invalid := by
  rw [definition, hbase, ok_bind, hoverrides, ok_bind, Overrides.complete]

/-- Options that change a definition select what a form gives for the given fields and the others
written back, if the given ones are complete. If they are not, a form refuses them. The options still
select a definition then, unless the blank is too long: one without an initial state or rules. -/
theorem definition_eq_ofFields (hbase : options.base around = .ok (some base))
    (hoverrides : options.overrides around = .ok overrides) :
    (overrides.IsComplete →
        options.definition around =
          ((Definition.ofFields (overrides.putOver base.written)).map fun formed =>
            { formed with name := base.name }).mapError .invalid) ∧
      (¬ overrides.IsComplete →
        Definition.ofFields (overrides.putOver base.written) = .error .initialStateMissing ∨
          Definition.ofFields (overrides.putOver base.written) = .error .rulesMissing) ∧
      ((∃ definition, options.definition around = .ok definition) ↔
        ∀ text ∈ overrides.blank, (Text.trim text.toList).length ≤ 1) ∧
      ∀ definition, options.definition around = .ok definition →
        (overrides.IsComplete ↔ definition.initial ≠ "" ∧ definition.rules ≠ []) := by
  have hnormal := isNormal_of_base hbase
  have hcomplete : overrides.IsComplete ↔ _ := Overrides.isComplete_iff hnormal
  have hchanged := definition_eq_apply hbase hoverrides
  rw [Overrides.apply_eq_map hnormal] at hchanged
  refine ⟨fun h => ?_, fun h => ?_, ?_, fun definition hdefinition => ?_⟩
  · obtain ⟨hinitial, hrules⟩ := hcomplete.1 h
    rw [hchanged, Definition.ofFields_eq_ite, if_neg hinitial, if_neg hrules]
    cases readBlank (overrides.putOver base.written).blank <;> rfl
  · rw [Definition.ofFields_eq_ite]
    split
    · exact .inl rfl
    · next hinitial =>
        refine .inr (if_pos ?_)
        by_contra hrules
        exact h (hcomplete.2 ⟨hinitial, hrules⟩)
  · have hkept : ∃ blank, readBlank (blankText base.blank) = .ok blank :=
      ⟨base.blank, readBlank_blankText hnormal.blank⟩
    have hgiven := Overrides.forall_mem_iff_getD (∃ blank, readBlank · = .ok blank) hkept
      overrides.blank
    rw [hchanged, exists_mapError_map_eq_ok]
    simp only [exists_readBlank_eq_ok_iff] at hgiven ⊢
    exact hgiven.symm
  · rw [hchanged, mapError_map_eq_ok] at hdefinition
    obtain ⟨blank, -, rfl⟩ := hdefinition
    exact hcomplete

def stepText : String := "initial: q\nrules:\nq,_ -> f,a,R\n"

def stepDefinition : Definition := ⟨none, "", "q", [], none, ["q,_ -> f,a,R"]⟩

/-- A small definition as the input, and no files. -/
def aroundStep : Surroundings := ⟨fun _ => .error .missing, some stepText.toUTF8⟩

/-- Options that give an initial state or final states and nothing else. -/
def changing (initial finals : Option String) : Options :=
  ⟨none, none, false, none, initial, finals, none, none, false, none, none, false⟩

theorem base_changing (initial finals : Option String) :
    (changing initial finals).base aroundStep = .ok (some stepDefinition) := by
  have htext : inputText (.ok stepText.toUTF8) = .ok stepText := by decide +kernel
  have hdefinition : Definition.ofText stepText = .ok stepDefinition := by decide +kernel
  rw [base, changing, aroundStep]
  dsimp only
  rw [htext, ok_bind, hdefinition]
  rfl

theorem overrides_changing (initial finals : Option String) (around : Surroundings) :
    (changing initial finals).overrides around = .ok ⟨none, initial, finals, none, none⟩ :=
  rfl

theorem definition_eq_ofFields_step :
    let options := changing (some " f ") (some "q, h")
    let overrides : Overrides := ⟨none, some " f ", some "q, h", none, none⟩
    options.base aroundStep = .ok (some stepDefinition) ∧
      options.overrides aroundStep = .ok overrides ∧ overrides.IsComplete ∧
      options.definition aroundStep =
        .ok ⟨none, "", "f", ["q", "h"], none, ["q,_ -> f,a,R"]⟩ := by
  intro options overrides
  have hbase : options.base aroundStep = .ok (some stepDefinition) := base_changing _ _
  have hoverrides : options.overrides aroundStep = .ok overrides := overrides_changing _ _ _
  have hcomplete : overrides.IsComplete := by
    refine ⟨?_, nofun⟩
    rintro text ⟨⟩
    decide
  have hformed : Definition.ofFields (overrides.putOver stepDefinition.written) =
      .ok ⟨none, "", "f", ["q", "h"], none, ["q,_ -> f,a,R"]⟩ := by
    decide +kernel
  refine ⟨hbase, hoverrides, hcomplete, ?_⟩
  rw [(definition_eq_ofFields hbase hoverrides).1 hcomplete, hformed]
  rfl

/-- An empty initial state is given. A form refuses it, but a machine is loaded and run. -/
theorem respond_emptyInitial :
    Options.read ["--initial", ""] = .ok (changing (some "") none) ∧
      (changing (some "") none).base aroundStep = .ok (some stepDefinition) ∧
      Definition.ofFields
          (Overrides.putOver ⟨none, some "", none, none, none⟩ stepDefinition.written) =
        .error .initialStateMissing ∧
      (changing (some "") none).definition aroundStep = .ok { stepDefinition with initial := "" } ∧
      CommandLine.respond ["--initial", ""] aroundStep =
        ⟨1, "\nRejected after 0 steps in state \n", ""⟩ := by
  have hdefinition : (changing (some "") none).definition aroundStep =
      .ok { stepDefinition with initial := "" } := by
    rw [definition_eq_apply (base_changing _ _) (overrides_changing _ _ _)]
    rfl
  exact ⟨rfl, base_changing _ _, rfl, hdefinition, by decide +kernel⟩

end Options

end TapeMachine.CommandLine
