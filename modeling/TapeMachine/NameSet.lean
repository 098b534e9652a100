/-!
Sets of state names, kept in increasing order of code points and without repetition, so that two
sets with the same members are equal and are listed alike.
-/

namespace TapeMachine

def insertName (name : String) : List String → List String
  | [] => [name]
  | first :: rest =>
      if name < first then name :: first :: rest
      else if name = first then first :: rest
      else first :: insertName name rest

theorem mem_insertName {name other : String} {names : List String} :
    other ∈ insertName name names ↔ other = name ∨ other ∈ names := by
  induction names with
  | nil => simp [insertName]
  | cons first rest ih => grind [insertName]

theorem pairwise_insertName {name : String} {names : List String}
    (h : names.Pairwise (· < ·)) : (insertName name names).Pairwise (· < ·) := by
  induction names with
  | nil => simp [insertName]
  | cons first rest ih =>
      rw [List.pairwise_cons] at h
      rw [insertName]
      split
      · next hlt =>
          refine List.pairwise_cons.2 ⟨fun other hmem => ?_, List.pairwise_cons.2 h⟩
          rcases List.mem_cons.1 hmem with rfl | hrest
          · exact hlt
          · exact String.lt_trans hlt (h.1 other hrest)
      · next hlt =>
          split
          · exact List.pairwise_cons.2 h
          · next hne =>
              refine List.pairwise_cons.2 ⟨fun other hmem => ?_, ih h.2⟩
              rcases mem_insertName.1 hmem with rfl | hrest
              · exact Std.lt_of_le_of_ne (String.not_lt.1 hlt) (Ne.symm hne)
              · exact h.1 other hrest

structure NameSet where
  toList : List String
  sorted : toList.Pairwise (· < ·)
deriving DecidableEq

namespace NameSet

def empty : NameSet := ⟨[], .nil⟩

instance : Inhabited NameSet := ⟨empty⟩

instance : Membership String NameSet := ⟨fun names name => name ∈ names.toList⟩

instance (name : String) (names : NameSet) : Decidable (name ∈ names) :=
  inferInstanceAs (Decidable (name ∈ names.toList))

def insert (names : NameSet) (name : String) : NameSet :=
  ⟨insertName name names.toList, pairwise_insertName names.sorted⟩

def ofList (names : List String) : NameSet :=
  names.foldl insert empty

@[simp] theorem mem_toList {name : String} {names : NameSet} : name ∈ names.toList ↔ name ∈ names :=
  Iff.rfl

@[simp] theorem mem_insert {name other : String} {names : NameSet} :
    other ∈ names.insert name ↔ other = name ∨ other ∈ names :=
  mem_insertName

@[simp] theorem mem_ofList {name : String} {names : List String} :
    name ∈ ofList names ↔ name ∈ names := by
  suffices h : ∀ start : NameSet, name ∈ names.foldl insert start ↔ name ∈ start ∨ name ∈ names by
    have hempty : ¬ name ∈ empty := List.not_mem_nil
    simp [ofList, h, hempty]
  intro start
  induction names generalizing start with
  | nil => simp
  | cons first rest ih => simp only [List.foldl_cons, ih, mem_insert, List.mem_cons]; grind

end NameSet

end TapeMachine
