import TapeMachine.Proofs.Text.Trim
import TapeMachine.Text.Lines

/-!
Lines, and blanks in them. Every line is followed by the lines of what stands after its line feed.
Where a text has no blanks but spaces, tabs and line ends, trimming takes spaces and tabs alone.
-/

namespace TapeMachine.Text

/-- The blanks are spaces, tabs and line ends, and each carriage return belongs to a line feed. -/
def PlainBlanks : List Char → Prop
  | [] => True
  | c :: rest =>
      (isBlank c = true → isGap c = true ∨ c = '\n' ∨ c = '\r' ∧ rest.head? = some '\n') ∧
        PlainBlanks rest

instance decidablePlainBlanks : DecidablePred PlainBlanks
  | [] => .isTrue trivial
  | c :: rest =>
      have := decidablePlainBlanks rest
      inferInstanceAs (Decidable
        ((isBlank c = true → isGap c = true ∨ c = '\n' ∨ c = '\r' ∧ rest.head? = some '\n') ∧
          PlainBlanks rest))

theorem PlainBlanks.of_append {before rest : List Char} (h : PlainBlanks (before ++ rest)) :
    PlainBlanks rest := by
  induction before with
  | nil => exact h
  | cons c before ih => exact ih h.2

/-! Trimming. -/

theorem trim_append_left {gap : List Char} (h : ∀ c ∈ gap, isBlank c = true) (text : List Char) :
    trim (gap ++ text) = trim text := by
  rw [trim_eq, trim_eq, List.dropWhile_append_of_pos h]

theorem trim_append_right {gap : List Char} (h : ∀ c ∈ gap, isBlank c = true) (text : List Char) :
    trim (text ++ gap) = trim text := by
  rw [trim_eq, trim_eq, List.dropWhile_append]
  split
  · next hempty =>
      rw [List.isEmpty_iff.1 hempty, List.dropWhile_eq_nil_iff.2 h]
  · rw [List.rdropWhile, List.reverse_append, List.dropWhile_append_of_pos, ← List.rdropWhile]
    exact fun c hc => h c (List.mem_reverse.1 hc)

theorem exists_trim (text : List Char) :
    ∃ before after, (∀ c ∈ before, isBlank c = true) ∧ (∀ c ∈ after, isBlank c = true) ∧
      text = before ++ (trim text ++ after) := by
  refine ⟨text.takeWhile isBlank, (text.dropWhile isBlank).rtakeWhile isBlank,
    fun c hc => List.mem_takeWhile_imp hc, fun c hc => List.mem_rtakeWhile_imp hc, ?_⟩
  rw [trim_eq, List.rdropWhile_append_rtakeWhile, List.takeWhile_append_dropWhile]

/-- Only of blanks nothing is left. -/
theorem isBlank_of_trim_eq_nil {text : List Char} (h : trim text = []) :
    ∀ c ∈ text, isBlank c = true := by
  obtain ⟨before, after, hbefore, hafter, htext⟩ := exists_trim text
  rw [htext, h, List.nil_append]
  intro c hc
  exact (List.mem_append.1 hc).elim (hbefore c) (hafter c)

/-- Where a text begins with no blank, trimming leaves a beginning of it. -/
theorem exists_trim_of_first {c : Char} (hc : isBlank c = false) (rest : List Char) :
    ∃ body after, trim (c :: rest) = c :: body ∧ (∀ d ∈ after, isBlank d = true) ∧
      rest = body ++ after := by
  obtain ⟨before, after, hbefore, hafter, htext⟩ := exists_trim (c :: rest)
  cases before with
  | cons d before =>
      obtain ⟨rfl, -⟩ := List.cons.inj htext
      rw [hbefore c List.mem_cons_self] at hc
      contradiction
  | nil =>
      cases hbody : trim (c :: rest) with
      | nil =>
          rw [isBlank_of_trim_eq_nil hbody c List.mem_cons_self] at hc
          contradiction
      | cons d body =>
          rw [hbody] at htext
          obtain ⟨rfl, hrest⟩ := List.cons.inj htext
          exact ⟨body, after, rfl, hafter, hrest⟩

theorem IsTrimmed.trim_eq_self {text : List Char} (h : IsTrimmed text) : trim text = text := by
  have hfirst : text.dropWhile isBlank = text := by
    cases text with
    | nil => rfl
    | cons c rest => rw [List.dropWhile_cons, h.first c rfl, if_neg Bool.false_ne_true]
  rw [trim_eq, hfirst, List.rdropWhile_eq_self_iff]
  intro hne
  rw [h.last _ (List.getLast?_eq_getLast_of_ne_nil hne)]
  exact Bool.false_ne_true

theorem trim_trim (text : List Char) : trim (trim text) = trim text :=
  (isTrimmed_trim text).trim_eq_self

theorem trim_append_return (line : List Char) : trim (line ++ ['\r']) = trim line :=
  trim_append_right (List.forall_mem_singleton.2 rfl) line

theorem trim_dropReturn (line : List Char) : trim (dropReturn line) = trim line := by
  rw [dropReturn]
  split
  · next hreturn =>
      rw [← trim_append_return, List.dropLast_append_getLast? '\r' hreturn]
  · rfl

theorem mem_of_mem_trim {text : List Char} {c : Char} (h : c ∈ trim text) : c ∈ text :=
  (List.dropWhile_suffix isBlank).subset ((List.rdropWhile_prefix isBlank _).subset h)

/-! Lines. -/

/-- The pieces hold no separator. -/
theorem not_mem_of_mem_splitOn {separator : Char} {text piece : List Char}
    (h : piece ∈ text.splitOn separator) : separator ∉ piece := by
  induction text generalizing piece with
  | nil =>
      rw [List.splitOn_nil, List.mem_singleton] at h
      rw [h]
      exact List.not_mem_nil
  | cons c text ih =>
      rw [List.splitOn_cons_eq_if_modifyHead] at h
      split at h
      · rcases List.mem_cons.1 h with rfl | hlater
        · exact List.not_mem_nil
        · exact ih hlater
      · next hne =>
          cases hpieces : text.splitOn separator with
          | nil => exact absurd hpieces (List.splitOn_ne_nil separator text)
          | cons first others =>
              rw [hpieces] at h ih
              rcases List.mem_cons.1 h with rfl | hother
              · intro hmem
                rcases List.mem_cons.1 hmem with rfl | hfirst
                · exact hne BEq.rfl
                · exact ih List.mem_cons_self hfirst
              · exact ih (List.mem_cons_of_mem first hother)

theorem feed_not_mem_of_mem_lines {text line : List Char} (h : line ∈ lines text) : '\n' ∉ line := by
  rw [lines, List.mem_append, List.mem_map, List.mem_filter] at h
  rcases h with ⟨piece, hpiece, rfl⟩ | ⟨hlast, -⟩
  · have hfeed := not_mem_of_mem_splitOn (List.dropLast_subset _ hpiece)
    rw [dropReturn]
    split
    · exact fun hmem => hfeed (List.dropLast_subset _ hmem)
    · exact hfeed
  · exact not_mem_of_mem_splitOn (List.mem_of_getLast? (Option.mem_toList.1 hlast))

theorem lines_of_not_mem {line : List Char} (h : '\n' ∉ line) :
    lines line = [line].filter (!·.isEmpty) := by
  rw [lines, List.splitOn_eq_singleton h]
  rfl

theorem lines_append_feed {line : List Char} (h : '\n' ∉ line) (rest : List Char) :
    lines (line ++ '\n' :: rest) = dropReturn line :: lines rest := by
  have hne : rest.splitOn '\n' ≠ [] := List.splitOn_ne_nil _ _
  simp only [lines, List.splitOn_append_cons_self_of_not_mem h]
  rw [List.dropLast_cons_of_ne_nil hne, List.getLast?_cons_of_ne_nil hne, List.map_cons,
    List.cons_append]

end TapeMachine.Text
