import TapeMachine.Interchange
import TapeMachine.Proofs.Json.Members
import TapeMachine.Proofs.Json.Writing
import Mathlib

/-!
The JSON form of the library's data, as texts. Every value is read back from the text that it is
written as. A record is read from the text of an object by the names of its fields, so the order of
the members does not matter, nor do members with other names. Configurations are only written, and
their texts tell them apart.
-/

namespace TapeMachine

namespace Json

/-- Reads a value from a text, and from the value what it stands for. -/
def parse? {α : Type} (ofJson? : Json → Option α) (text : String) : Option α :=
  read text >>= ofJson?

section Parse

variable {α : Type} {ofJson? : Json → Option α} {names : List String}

theorem parse?_of_read {text : String} {value : Json} (h : read text = some value) :
    parse? ofJson? text = ofJson? value := by
  rw [parse?, h, Option.bind_eq_bind, Option.bind_some]

theorem parse?_compact {value : Json} {found : α} (hreadable : value.IsReadable)
    (hfound : ofJson? value = some found) : parse? ofJson? value.compact = some found := by
  rw [parse?_of_read (read_compact hreadable), hfound]

/-- A text of a member that has none of these names. -/
def IsForeignText (names : List String) (text : String) : Prop :=
  ∃ key value, IsMemberText text (some key, value) ∧ key ∉ names

/-- How a record is read from the text of an object: the text falls apart into the texts of members,
and these can be put together in another order, and with members of other names among them. -/
structure ReadsMembers (ofJson? : Json → Option α) (names : List String) : Prop where
  falls_apart {text : String} {found : α} {members : List (Option String × Json)}
    (hfound : parse? ofJson? text = some found) (hobject : read text = some (.object members)) :
    ∃ before texts after, IsBlank before ∧ IsBlank after ∧
      (∀ part ∈ texts, ∃ member, IsMemberText part member) ∧ text = objectText before texts after
  put_together {before after before' after' : String} {texts others texts' : List String}
    (hbefore : IsBlank before) (hafter : IsBlank after)
    (hbefore' : IsBlank before') (hafter' : IsBlank after')
    (htexts : ∀ part ∈ texts, ∃ member, IsMemberText part member)
    (hothers : ∀ part ∈ others, IsForeignText names part) (hperm : texts'.Perm (texts ++ others)) :
    parse? ofJson? (objectText before' texts' after') =
      parse? ofJson? (objectText before texts after)

theorem exists_forall₂_iff {α β : Type} {r : α → β → Prop} {items : List α} :
    (∃ images, List.Forall₂ r items images) ↔ ∀ item ∈ items, ∃ image, r item image := by
  induction items with
  | nil => exact iff_of_true ⟨[], .nil⟩ (List.forall_mem_nil _)
  | cons item items ih =>
      rw [List.forall_mem_cons, ← ih]
      constructor
      · rintro ⟨images, himages⟩
        cases himages with
        | cons himage himages => exact ⟨⟨_, himage⟩, _, himages⟩
      · rintro ⟨⟨_, himage⟩, _, himages⟩
        exact ⟨_, .cons himage himages⟩

theorem exists_foreign_members {texts : List String}
    (h : ∀ part ∈ texts, IsForeignText names part) :
    ∃ members, List.Forall₂ IsMemberText texts members ∧ AreForeign names members := by
  induction texts with
  | nil => exact ⟨[], .nil, List.forall_mem_nil _⟩
  | cons text texts ih =>
      obtain ⟨⟨key, value, htext, hkey⟩, hrest⟩ := List.forall_mem_cons.1 h
      obtain ⟨members, hmembers, hforeign⟩ := ih hrest
      exact ⟨(some key, value) :: members, .cons htext hmembers,
        List.forall_mem_cons.2 ⟨⟨key, rfl, hkey⟩, hforeign⟩⟩

theorem readsMembers_of_fields (hempty : ofJson? (.object []) = none)
    (hfields : ∀ members members', fields? names (.object members') = fields? names (.object members) →
      ofJson? (.object members') = ofJson? (.object members)) : ReadsMembers ofJson? names where
  falls_apart {text found members} hfound hobject := by
    rw [parse?_of_read hobject] at hfound
    have hne : members ≠ [] := by
      rintro rfl
      rw [hempty] at hfound
      cases hfound
    obtain ⟨before, texts, after, hbefore, hafter, htexts, htext⟩ := exists_objectText hobject hne
    exact ⟨before, texts, after, hbefore, hafter, exists_forall₂_iff.1 ⟨members, htexts⟩, htext⟩
  put_together hbefore hafter hbefore' hafter' htexts hothers hperm := by
    obtain ⟨members, hmembers⟩ := exists_forall₂_iff.2 htexts
    obtain ⟨foreign, hforeign, hnames⟩ := exists_foreign_members hothers
    have hall := List.rel_append hmembers hforeign
    obtain ⟨members', hmembers', hperm'⟩ := List.perm_comp_forall₂ hperm hall
    rw [parse?_of_read (read_objectText hmembers' hbefore' hafter'),
      parse?_of_read (read_objectText hmembers hbefore hafter)]
    exact hfields _ _ (fields?_of_perm hperm' hnames)

end Parse

/-! Values that can be read. -/

theorem readable_ofString (value : String) : (ofString value).IsReadable :=
  .text _

theorem readable_ofChar (value : Char) : (ofChar value).IsReadable :=
  .text _

theorem readable_ofInt (value : Int) : (ofInt value).IsReadable :=
  .number (isNumber_toString value)

theorem readable_ofOption {α : Type} {ofValue : α → Json} (h : ∀ value, (ofValue value).IsReadable)
    (given : Option α) : (ofOption ofValue given).IsReadable := by
  cases given with
  | none => exact .null
  | some value => exact h value

theorem readable_array {α : Type} {ofValue : α → Json} (h : ∀ value, (ofValue value).IsReadable)
    (values : List α) : (array (values.map ofValue)).IsReadable :=
  .array (List.forall_mem_map.2 fun value _ => h value)

theorem readable_ofMembers {members : List (String × Json)}
    (h : ∀ member ∈ members, member.2.IsReadable) : (ofMembers members).IsReadable :=
  .object (List.forall_mem_map.2 h)

/-! Values that are taken apart. -/

theorem asString?_ofString (value : String) : (ofString value).asString? = some value :=
  rfl

theorem asChar?_ofChar (value : Char) : (ofChar value).asChar? = some value := by
  simp [asChar?, ofChar, ofString, asString?]

theorem asStrings?_array (values : List String) :
    (array (values.map ofString)).asStrings? = some values := by
  rw [asStrings?]
  induction values with
  | nil => rfl
  | cons value values ih =>
      rw [List.map_cons, List.mapM_cons, ih]
      rfl

theorem asOption?_ofOption_ofString (given : Option String) :
    (ofOption ofString given).asOption? asString? = some given := by
  cases given <;> rfl

theorem asOption?_ofOption_ofChar (given : Option Char) :
    (ofOption ofChar given).asOption? asChar? = some given := by
  cases given with
  | none => rfl
  | some value => exact congrArg (Option.map some) (asChar?_ofChar value)

end Json

open Json

/-! The data. -/

theorem Direction.ofJson?_toJson (direction : Direction) :
    ofJson? direction.toJson = some direction := by
  cases direction <;> rfl

theorem Status.ofJson?_toJson (status : Status) : ofJson? status.toJson = some status := by
  cases status <;> rfl

theorem Situation.readable_toJson (situation : Situation) : situation.toJson.IsReadable := by
  rw [toJson]
  apply readable_ofMembers
  simp only [List.forall_mem_cons]
  exact ⟨readable_ofString _, readable_ofChar _, List.forall_mem_nil _⟩

theorem Situation.ofJson?_toJson (situation : Situation) :
    ofJson? situation.toJson = some situation := by
  have hfields : situation.toJson.fields? ["state", "symbol"] =
      some [some (ofString situation.state), some (ofChar situation.symbol)] := rfl
  simp [ofJson?, hfields, asString?_ofString, asChar?_ofChar]

theorem Action.readable_toJson (action : Action) : action.toJson.IsReadable := by
  rw [toJson]
  apply readable_ofMembers
  simp only [List.forall_mem_cons]
  exact ⟨readable_ofString _, readable_ofChar _, readable_ofString _, List.forall_mem_nil _⟩

theorem Action.ofJson?_toJson (action : Action) : ofJson? action.toJson = some action := by
  have hfields : action.toJson.fields? ["next_state", "write", "direction"] =
      some [some (ofString action.next), some (ofChar action.write), some action.direction.toJson] :=
    rfl
  simp [ofJson?, hfields, asString?_ofString, asChar?_ofChar, Direction.ofJson?_toJson]

theorem Definition.readable_toJson (definition : Definition) : definition.toJson.IsReadable := by
  rw [toJson]
  apply readable_ofMembers
  simp only [List.forall_mem_cons]
  exact ⟨readable_ofOption readable_ofString _, readable_ofString _, readable_ofString _,
    readable_array readable_ofString _, readable_ofOption readable_ofChar _,
    readable_array readable_ofString _, List.forall_mem_nil _⟩

theorem Definition.ofJson?_toJson (definition : Definition) :
    ofJson? definition.toJson = some definition := by
  have hfields : definition.toJson.fields?
      ["name", "input", "initial_state", "final_states", "blank", "rules"] =
      some [some (ofOption ofString definition.name), some (ofString definition.input),
        some (ofString definition.initial), some (array (definition.finals.map ofString)),
        some (ofOption ofChar definition.blank), some (array (definition.rules.map ofString))] :=
    rfl
  simp [ofJson?, hfields, asString?_ofString, asStrings?_array, asOption?_ofOption_ofString,
    asOption?_ofOption_ofChar]

theorem Configuration.readable_toJson (config : Configuration) : config.toJson.IsReadable := by
  rw [toJson]
  apply readable_ofMembers
  simp only [List.forall_mem_cons]
  exact ⟨readable_array readable_ofChar _, readable_ofInt _, readable_ofString _, readable_ofInt _,
    readable_ofString _, readable_ofChar _, List.forall_mem_nil _⟩

theorem Status.toJson_injective {status status' : Status} (h : status.toJson = status'.toJson) :
    status = status' := by
  have hread := status.ofJson?_toJson
  rw [h, ofJson?_toJson] at hread
  exact (Option.some.inj hread).symm

theorem Configuration.toJson_injective {config config' : Configuration}
    (h : config.toJson = config'.toJson) : config = config' := by
  obtain ⟨⟨⟨cells⟩, head, blank⟩, state, steps, status⟩ := config
  obtain ⟨⟨⟨cells'⟩, head', blank'⟩, state', steps', status'⟩ := config'
  have hchar (c c' : Char) (h : ofChar c = ofChar c') : c = c' := by
    have hread := asChar?_ofChar c
    rw [h, asChar?_ofChar] at hread
    exact (Option.some.inj hread).symm
  have hint (n n' : Int) (h : ofInt n = ofInt n') : n = n' :=
    Int.repr_injective (Json.number.inj h)
  simp only [toJson, ofMembers, List.map_cons, object.injEq, List.cons.injEq, Prod.mk.injEq,
    array.injEq, ofString, text.injEq, Option.some.injEq, true_and, and_true] at h
  obtain ⟨hcells, hhead, rfl, hsteps, hstatus, hblank⟩ := h
  obtain rfl := List.map_injective_iff.2 hchar hcells
  obtain rfl := hint _ _ hhead
  obtain rfl := Int.ofNat_inj.1 (hint _ _ hsteps)
  obtain rfl := Status.toJson_injective hstatus
  obtain rfl := hchar _ _ hblank
  rfl

/-! Records. -/

theorem Situation.readsMembers : ReadsMembers ofJson? ["state", "symbol"] :=
  readsMembers_of_fields rfl fun members members' h => by rw [ofJson?, ofJson?, h]

theorem Action.readsMembers : ReadsMembers ofJson? ["next_state", "write", "direction"] :=
  readsMembers_of_fields rfl fun members members' h => by rw [ofJson?, ofJson?, h]

theorem Definition.readsMembers : ReadsMembers ofJson?
    ["name", "input", "initial_state", "final_states", "blank", "rules"] :=
  readsMembers_of_fields rfl fun members members' h => by rw [ofJson?, ofJson?, h]

/-- What is written is read back as what it was. A record is read from its members in any order, and
no others change what is read. The texts of two configurations are the same only if these are. -/
theorem compact_reads_back :
    (∀ direction : Direction,
      parse? Direction.ofJson? direction.toJson.compact = some direction) ∧
    (∀ status : Status, parse? Status.ofJson? status.toJson.compact = some status) ∧
    (∀ situation : Situation,
      parse? Situation.ofJson? situation.toJson.compact = some situation) ∧
    (∀ action : Action, parse? Action.ofJson? action.toJson.compact = some action) ∧
    (∀ definition : Definition,
      parse? Definition.ofJson? definition.toJson.compact = some definition) ∧
    ReadsMembers Situation.ofJson? ["state", "symbol"] ∧
    ReadsMembers Action.ofJson? ["next_state", "write", "direction"] ∧
    ReadsMembers Definition.ofJson?
      ["name", "input", "initial_state", "final_states", "blank", "rules"] ∧
    ∀ config config' : Configuration,
      config.toJson.compact = config'.toJson.compact → config = config' := by
  refine ⟨fun direction => ?_, fun status => ?_, fun situation => ?_, fun action => ?_,
    fun definition => ?_, Situation.readsMembers, Action.readsMembers, Definition.readsMembers,
    fun config config' h => ?_⟩
  · exact parse?_compact (readable_ofString _) direction.ofJson?_toJson
  · exact parse?_compact (readable_ofString _) status.ofJson?_toJson
  · exact parse?_compact situation.readable_toJson situation.ofJson?_toJson
  · exact parse?_compact action.readable_toJson action.ofJson?_toJson
  · exact parse?_compact definition.readable_toJson definition.ofJson?_toJson
  · exact Configuration.toJson_injective
      (compact_inj config.readable_toJson config'.readable_toJson h)

/-- A situation is read whether its symbol comes first or last, and whatever else is noted. -/
theorem compact_reads_back_reordered :
    let texts := ["\"state\":\"q\"", " \"symbol\" : \"\\u00e9\" "]
    let others := ["\"note\":[1,null]"]
    let texts' := [" \"symbol\" : \"\\u00e9\" ", "\"note\":[1,null]", "\"state\":\"q\""]
    (∀ part ∈ texts, ∃ member, IsMemberText part member) ∧
      (∀ part ∈ others, IsForeignText ["state", "symbol"] part) ∧
      texts'.Perm (texts ++ others) ∧
      parse? Situation.ofJson? (objectText "" texts "") = some ⟨"q", 'é'⟩ ∧
      parse? Situation.ofJson? (objectText "\n" texts' " ") = some ⟨"q", 'é'⟩ ∧
      ∃ before parts after, IsBlank before ∧ IsBlank after ∧
        (∀ part ∈ parts, ∃ member, IsMemberText part member) ∧
        objectText "" texts "" = objectText before parts after := by
  intro texts others texts'
  obtain ⟨-, -, -, -, -, hsituation, -⟩ := compact_reads_back
  have hmembers : List.Forall₂ IsMemberText texts
      [(some "state", .text (some "q")), (some "symbol", .text (some "é"))] :=
    .cons rfl (.cons rfl .nil)
  have htexts := exists_forall₂_iff.1 ⟨_, hmembers⟩
  have hempty : IsBlank "" := by decide
  have hothers : ∀ part ∈ others, IsForeignText ["state", "symbol"] part :=
    List.forall_mem_singleton.2 ⟨"note", .array [.number "1", .null], rfl, by decide⟩
  have hperm : texts'.Perm (texts ++ others) := by decide
  have hfound : parse? Situation.ofJson? (objectText "" texts "") = some ⟨"q", 'é'⟩ := by decide
  refine ⟨htexts, hothers, hperm, hfound, ?_, hsituation.falls_apart hfound
    (read_objectText hmembers hempty hempty)⟩
  have hbefore : IsBlank "\n" := by decide
  have hafter : IsBlank " " := by decide
  rw [hsituation.put_together hempty hempty hbefore hafter htexts hothers hperm]
  exact hfound

end TapeMachine
