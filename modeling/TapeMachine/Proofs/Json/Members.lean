import TapeMachine.Json.Decode
import TapeMachine.Proofs.Json.Tokens
import Mathlib.Data.List.Perm.Basic

/-!
Objects as texts of their members. The text of an object falls apart at its own commas into texts
that are each read as one member, and texts of members can be put together to an object in any
order. The main statement says that what is looked up in an object by the names of members depends
neither on their order nor on members that have other names.
-/

namespace TapeMachine.Json

/-- A text that is read as an object of one member when it alone stands in braces. -/
def IsMemberText (text : String) (member : Option String × Json) : Prop :=
  read ("\x7b" ++ text ++ "\x7d") = some (.object [member])

def IsBlank (text : String) : Prop :=
  ∀ c ∈ text.toList, isSpace c = true

instance (text : String) : Decidable (IsBlank text) :=
  List.decidableBAll (isSpace · = true) text.toList

/-- The texts of the members with commas between them, in braces, with something around. -/
def objectText (before : String) (members : List String) (after : String) : String :=
  before ++ "\x7b" ++ ",".intercalate members ++ "\x7d" ++ after

/-! Members. -/

theorem IsReadable.members {members : List (Option String × Json)} :
    (Json.object members).IsReadable → ∀ member ∈ members, member.2.IsReadable
  | .object h => h

/-- A mark at the end is the last token. -/
theorem lexFrom_of_append_mark {inside : Inside} {characters : List Char} {mark : Char}
    {tokens : List Token} (h : lexFrom inside (characters ++ [mark]) = some (tokens ++ [.mark mark])) :
    lexFrom inside characters = some tokens := by
  obtain ⟨first, second, heq, hmark, hfirst, hsecond⟩ := exists_split_of_mark h
  have hblank := lexFrom_eq_nil_iff.1 hsecond
  rcases second.eq_nil_or_concat with rfl | ⟨others, last, rfl⟩
  · obtain ⟨rfl, -⟩ := List.append_inj' heq rfl
    exact hfirst
  · rw [List.concat_eq_append, ← List.cons_append, ← List.append_assoc] at heq
    obtain ⟨-, hlast⟩ := List.append_inj' heq rfl
    have hspace := hblank mark (by simp [List.cons.inj hlast])
    simp only [isMark, Bool.or_eq_true, beq_iff_eq] at hmark
    rcases hmark with ((((rfl | rfl) | rfl) | rfl) | rfl) | rfl <;> cases hspace

theorem isMemberText_iff {text : String} {member : Option String × Json} :
    IsMemberText text member ↔
      member.2.IsReadable ∧ lexFrom .nothing text.toList = some (ofMember member) := by
  have htext : ("\x7b" ++ text ++ "\x7d").toList = [] ++ '\x7b' :: (text.toList ++ ['\x7d']) := by
    simp
  have hnothing : lexFrom .nothing [] = some [] := rfl
  have htokens : (object [member]).tokens = .mark '\x7b' :: (ofMember member ++ [.mark '\x7d']) := by
    rw [tokens_object]
    simp
  rw [IsMemberText, read_eq_some_iff, lex_eq_lexFrom, htext,
    lexFrom_append_mark hnothing rfl, htokens]
  constructor
  · rintro ⟨hreadable, hlex⟩
    obtain ⟨found, hfound, heq⟩ := Option.map_eq_some_iff.1 hlex
    obtain rfl : found = ofMember member ++ [.mark '\x7d'] := (List.cons.inj heq).2
    exact ⟨hreadable.members member List.mem_cons_self, lexFrom_of_append_mark hfound⟩
  · rintro ⟨hreadable, hlex⟩
    refine ⟨.object (List.forall_mem_singleton.2 hreadable), ?_⟩
    rw [lexFrom_append_mark hlex rfl]
    rfl

section Texts

variable {texts : List String} {members : List (Option String × Json)}

theorem readable_of_memberTexts (h : List.Forall₂ IsMemberText texts members) :
    ∀ member ∈ members, member.2.IsReadable := by
  induction h with
  | nil => exact List.forall_mem_nil _
  | cons htext _ ih => exact List.forall_mem_cons.2 ⟨(isMemberText_iff.1 htext).1, ih⟩

theorem toList_intercalate_cons {text next : String} :
    (",".intercalate (text :: next :: texts)).toList =
      text.toList ++ ',' :: (",".intercalate (next :: texts)).toList := by
  simp

theorem lexFrom_memberTexts (h : List.Forall₂ IsMemberText texts members) :
    lexFrom .nothing (",".intercalate texts).toList =
      some ([.mark ','].intercalate (members.map ofMember)) := by
  induction h with
  | nil => rfl
  | @cons text member texts members htext hrest ih =>
      have hlex := (isMemberText_iff.1 htext).2
      cases hrest with
      | nil => simpa using hlex
      | cons _ _ =>
          rw [toList_intercalate_cons, lexFrom_append_mark hlex rfl, ih]
          simp

/-- Where commas stand between the tokens of members, they stand between their texts. -/
theorem exists_memberTexts {characters : List Char}
    (hreadable : ∀ member ∈ members, member.2.IsReadable) (hne : members ≠ [])
    (h : lexFrom .nothing characters = some ([.mark ','].intercalate (members.map ofMember))) :
    ∃ texts, List.Forall₂ IsMemberText texts members ∧
      characters = (",".intercalate texts).toList := by
  induction members generalizing characters with
  | nil => exact absurd rfl hne
  | cons member members ih =>
      obtain ⟨hmember, hrest⟩ := List.forall_mem_cons.1 hreadable
      cases members with
      | nil =>
          rw [List.map_singleton, List.intercalate_singleton] at h
          refine ⟨[String.ofList characters], .cons (isMemberText_iff.2 ⟨hmember, ?_⟩) .nil, ?_⟩
          · rwa [String.toList_ofList]
          · rw [String.intercalate_singleton, String.toList_ofList]
      | cons next others =>
          rw [List.map_cons, List.map_cons, List.intercalate_cons_cons, List.append_assoc,
            List.singleton_append] at h
          obtain ⟨first, second, rfl, -, hfirst, hsecond⟩ := exists_split_of_mark h
          obtain ⟨texts, htexts, rfl⟩ := ih hrest (List.cons_ne_nil _ _) hsecond
          refine ⟨String.ofList first :: texts, .cons (isMemberText_iff.2 ⟨hmember, ?_⟩) htexts, ?_⟩
          · rwa [String.toList_ofList]
          · cases htexts
            rw [toList_intercalate_cons, String.toList_ofList]

theorem read_objectText (h : List.Forall₂ IsMemberText texts members) {before after : String}
    (hbefore : IsBlank before) (hafter : IsBlank after) :
    read (objectText before texts after) = some (.object members) := by
  refine read_eq_some_iff.2 ⟨.object (readable_of_memberTexts h), ?_⟩
  have htext : (objectText before texts after).toList =
      before.toList ++ '\x7b' :: ((",".intercalate texts).toList ++ '\x7d' :: after.toList) := by
    simp [objectText]
  rw [lex_eq_lexFrom, htext, lexFrom_append_mark (lexFrom_eq_nil_iff.2 hbefore) rfl,
    lexFrom_append_mark (lexFrom_memberTexts h) rfl, lexFrom_eq_nil_iff.2 hafter, tokens_object]
  rfl

theorem exists_objectText {text : String} (h : read text = some (.object members))
    (hne : members ≠ []) : ∃ before texts after, IsBlank before ∧ IsBlank after ∧
      List.Forall₂ IsMemberText texts members ∧ text = objectText before texts after := by
  obtain ⟨hreadable, hlex⟩ := read_eq_some_iff.1 h
  have hopened : lexFrom .nothing text.toList = some ([] ++ .mark '\x7b' ::
      ([.mark ','].intercalate (members.map ofMember) ++ .mark '\x7d' :: [])) := by
    rw [← lex_eq_lexFrom, hlex, tokens_object]
    rfl
  obtain ⟨before, inner, htext, -, hbefore, hinner⟩ := exists_split_of_mark hopened
  obtain ⟨body, after, rfl, -, hbody, hafter⟩ := exists_split_of_mark hinner
  obtain ⟨texts, htexts, rfl⟩ := exists_memberTexts hreadable.members hne hbody
  refine ⟨String.ofList before, texts, String.ofList after, ?_, ?_, htexts, ?_⟩
  · rw [IsBlank, String.toList_ofList]
    exact lexFrom_eq_nil_iff.1 hbefore
  · rw [IsBlank, String.toList_ofList]
    exact lexFrom_eq_nil_iff.1 hafter
  · rw [← String.toList_inj, htext]
    simp [objectText]

end Texts

/-! Looking members up. -/

section Lookup

variable {members members' others : List (Option String × Json)} {names : List String}

theorem member?_of_perm {name : String}
    (h : (members'.filter (·.1 == some name)).Perm (members.filter (·.1 == some name))) :
    member? members' name = member? members name := by
  rw [member?, member?]
  generalize members.filter (·.1 == some name) = given at h
  generalize members'.filter (·.1 == some name) = given' at h
  cases given with
  | nil => rw [h.eq_nil]
  | cons member rest =>
      cases rest with
      | nil => rw [h.eq_singleton]
      | cons second rest =>
          have hlength := h.length_eq
          -- Two members with the name are too many, in whatever order.
          cases given' with
          | nil => cases hlength
          | cons member' rest' =>
              cases rest' with
              | nil => cases hlength
              | cons second' rest' => rfl

/-- Members with other names, which do not count. -/
def AreForeign (names : List String) (members : List (Option String × Json)) : Prop :=
  ∀ member ∈ members, ∃ key, member.1 = some key ∧ key ∉ names

theorem AreForeign.filter_eq_nil (h : AreForeign names others) {name : String} (hname : name ∈ names) :
    others.filter (·.1 == some name) = [] := by
  rw [List.filter_eq_nil_iff]
  intro member hmember heq
  obtain ⟨key, hkey, hnot⟩ := h member hmember
  rw [hkey, beq_iff_eq, Option.some.injEq] at heq
  exact hnot (heq ▸ hname)

theorem mapM_congr_of_mem {α β : Type} {f g : α → Option β} {items : List α}
    (h : ∀ item ∈ items, f item = g item) : items.mapM f = items.mapM g := by
  induction items with
  | nil => rfl
  | cons item items ih =>
      obtain ⟨hitem, hrest⟩ := List.forall_mem_cons.1 h
      rw [List.mapM_cons, List.mapM_cons, hitem, ih hrest]

theorem fields?_of_perm (h : members'.Perm (members ++ others)) (hothers : AreForeign names others) :
    fields? names (.object members') = fields? names (.object members) := by
  have hsome : members'.all (·.1.isSome) = members.all (·.1.isSome) := by
    have hnamed : others.all (·.1.isSome) = true := by
      rw [List.all_eq_true]
      intro member hmember
      obtain ⟨key, hkey, -⟩ := hothers member hmember
      rw [hkey]
      rfl
    rw [h.all_eq, List.all_append, hnamed, Bool.and_true]
  have hlookup : names.mapM (member? members') = names.mapM (member? members) := by
    refine mapM_congr_of_mem fun name hname => member?_of_perm ?_
    have hfilter := h.filter (·.1 == some name)
    rwa [List.filter_append, hothers.filter_eq_nil hname, List.append_nil] at hfilter
  rw [fields?, fields?, hsome, hlookup]

end Lookup

end TapeMachine.Json
