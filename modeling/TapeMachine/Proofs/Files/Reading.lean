import TapeMachine.Files.Tree
import TapeMachine.Proofs.Bind

/-!
Paths that lead to files. Each directory on the way is looked up before the path goes on from it, so
a path can end at a file only with the name of that file: one that ends in dots or in a slash ends
at a directory.
-/

namespace TapeMachine.Files

def Tree.IsDirectory (tree : Tree) (place : List String) : Prop :=
  tree.entry? place = some .directory

/-- The working directory is one, and so is each directory that it is in. -/
def Tree.IsRooted (tree : Tree) : Prop :=
  ∀ place, place <+: tree.home → tree.IsDirectory place

/-- A place that can be gone to: what it is in are directories. -/
def Tree.IsOpen (tree : Tree) (place : List String) : Prop :=
  ∀ outer, outer <+: place → outer ≠ place → tree.IsDirectory outer

theorem components_ne_nil (path : String) : components path ≠ [] := by
  rw [components, ne_eq, List.map_eq_nil_iff]
  exact List.splitOn_ne_nil '/' path.toList

/-- A path whose last component names a file. -/
theorem fileName?_of_components {path name : String} {before : List String}
    (h : components path = before ++ [name]) (hsame : isSame name = false) (hup : name ≠ "..") :
    fileName? path = some name := by
  have hlast : ((components path).filter (!isSame ·)).getLast? = some name := by
    rw [h, List.filter_append]
    simp [hsame]
  rw [fileName?, hlast]
  split
  · next heq => exact absurd (Option.some.inj heq) hup
  · next heq => cases heq
  · next heq => exact heq.symm

namespace Tree

variable {tree : Tree} {place next : List String} {component : String}

/-- What going on to a component does, unless the component is too long. -/
inductive FollowCase (tree : Tree) (place : List String) (component : String) :
    List String → Prop where
  | same (hsame : isSame component = true) : FollowCase tree place component place
  | up (hup : component = "..") : FollowCase tree place component place.dropLast
  | down (hsame : isSame component = false) (hup : component ≠ "..") :
      FollowCase tree place component (place ++ [component])

theorem follow_cases (h : tree.follow place component = .ok next) :
    tree.IsDirectory place ∧ FollowCase tree place component next := by
  rw [follow] at h
  split at h
  · cases h
  · cases h
  · next hplace =>
      refine ⟨hplace, ?_⟩
      split at h
      · next hsame =>
          cases h
          exact .same hsame
      · next hsame =>
          rw [Bool.not_eq_true] at hsame
          split at h
          · next hup =>
              cases h
              exact .up (eq_of_beq hup)
          · next hup =>
              split at h
              · cases h
              · cases h
                exact .down hsame fun heq => hup (beq_iff_eq.2 heq)

theorem IsOpen.dropLast (h : tree.IsOpen place) (hplace : tree.IsDirectory place) :
    tree.IsDirectory place.dropLast := by
  by_cases hnil : place = []
  · rw [hnil] at hplace ⊢
    exact hplace
  · refine h _ (List.dropLast_prefix place) fun heq => ?_
    have hlength := congrArg List.length heq
    rw [List.length_dropLast] at hlength
    have hpos := List.length_pos_iff.2 hnil
    omega

theorem IsOpen.follow (h : tree.IsOpen place) (hfollow : tree.follow place component = .ok next) :
    tree.IsOpen next := by
  obtain ⟨hplace, hcase⟩ := follow_cases hfollow
  cases hcase with
  | same => exact h
  | up =>
      intro outer houter hne
      by_cases heq : outer = place
      · rw [heq]
        exact hplace
      · exact h outer (houter.trans (List.dropLast_prefix place)) heq
  | down =>
      intro outer houter hne
      rw [List.prefix_concat_iff] at houter
      rcases houter with heq | houter
      · exact absurd heq hne
      · by_cases heq : outer = place
        · rw [heq]
          exact hplace
        · exact h outer houter heq

theorem IsOpen.foldlM (h : tree.IsOpen place) {components : List String}
    (hfold : components.foldlM tree.follow place = .ok next) : tree.IsOpen next := by
  induction components generalizing place with
  | nil =>
      cases hfold
      exact h
  | cons component components ih =>
      rw [List.foldlM_cons, bind_eq_ok] at hfold
      obtain ⟨middle, hfirst, hrest⟩ := hfold
      exact ih (h.follow hfirst) hrest

theorem exists_of_read {path : String} {content : ByteArray} (h : tree.read path = .ok content) :
    ∃ place, (components path).foldlM tree.follow (if isAbsolute path then [] else tree.home) =
        .ok place ∧ tree.entry? place = some (.file content) := by
  unfold read at h
  generalize (if isAbsolute path = true then [] else tree.home) = start at h ⊢
  dsimp only at h
  split at h
  · cases h
  · split at h
    · cases h
    · split at h
      · cases h
      · obtain ⟨place, hplace, hcontent⟩ := bind_eq_ok.1 h
        refine ⟨place, hplace, ?_⟩
        split at hcontent
        · cases hcontent
        · cases hcontent
        · next hfile =>
            cases hcontent
            exact hfile

/-- A path to a file ends with the name of the file. -/
theorem fileName?_of_read (hrooted : tree.IsRooted) {path : String} {content : ByteArray}
    (h : tree.read path = .ok content) : ∃ name, fileName? path = some name := by
  obtain ⟨place, hplace, hfile⟩ := exists_of_read h
  have hnot : ¬ tree.IsDirectory place := by
    intro hdirectory
    rw [IsDirectory, hfile] at hdirectory
    cases hdirectory
  have hstart : tree.IsOpen (if isAbsolute path then [] else tree.home) := by
    intro outer houter _
    split at houter
    · rw [List.prefix_nil.1 houter]
      exact hrooted [] List.nil_prefix
    · exact hrooted outer houter
  -- Whatever comes before, it leads to a place that can be gone to, and the last component decides.
  have hsplit := List.dropLast_concat_getLast (components_ne_nil path)
  rw [← hsplit, List.foldlM_append, bind_eq_ok] at hplace
  obtain ⟨parent, hparent, hlast⟩ := hplace
  rw [List.foldlM_cons, bind_eq_ok] at hlast
  obtain ⟨last, hfollow, hnil⟩ := hlast
  cases hnil
  obtain ⟨hdirectory, hcase⟩ := follow_cases hfollow
  cases hcase with
  | same => exact absurd hdirectory hnot
  | up => exact absurd ((hstart.foldlM hparent).dropLast hdirectory) hnot
  | down hsame hup => exact ⟨_, fileName?_of_components hsplit.symm hsame hup⟩

end Tree

end TapeMachine.Files
