import TapeMachine.Proofs.Source.Lines

/-!
Places on lines. A reader numbers the lines by the line feeds before them. Where no carriage return
stands alone, one line feed ends each line but the last, and a line has the number it has among the
lines of the text.
-/

namespace TapeMachine.Source

def Line.stop (line : Line) : Nat :=
  line.start + line.content.length

theorem start_le_of_mem_linesFrom (text : List Char) (start : Nat) :
    ∀ line ∈ linesFrom start text, start ≤ line.start := by
  induction text using line_induction generalizing start with
  | hline content tail hcontent htail ih =>
      rw [linesFrom_append hcontent htail, linesAfter]
      intro line hline
      cases hafter : afterLineEnd? tail with
      | none =>
          rw [hafter] at hline
          rw [List.mem_singleton.1 hline]
      | some after =>
          obtain ⟨count, rest⟩ := after
          rw [hafter] at hline
          rcases List.mem_cons.1 hline with rfl | hline
          · exact Nat.le_refl start
          · have hle := ih count rest hafter _ line hline
            omega

theorem start_le_of_mem_linesAfter {tail : List Char} {start : Nat} :
    ∀ line ∈ linesAfter start tail, start ≤ line.start := by
  intro line hline
  rw [linesAfter] at hline
  split at hline
  · cases hline
  · next count rest _ =>
      exact Nat.le_trans (Nat.le_add_right start count) (start_le_of_mem_linesFrom rest _ line hline)

/-! Line feeds. -/

/-- Whether a carriage return stands somewhere without a line feed after it. -/
def hasLoneReturn : List Char → Bool
  | [] => false
  | '\r' :: '\n' :: rest => hasLoneReturn rest
  | '\r' :: _ => true
  | _ :: rest => hasLoneReturn rest

theorem hasLoneReturn_append {content : List Char} (h : IsLine content) (tail : List Char) :
    hasLoneReturn (content ++ tail) = hasLoneReturn tail := by
  induction content with
  | nil => rfl
  | cons c content ih =>
      obtain ⟨hc, hcontent⟩ := isLine_cons.1 h
      have hreturn := (isLineEnd_eq_false.1 hc).1
      rw [List.cons_append, hasLoneReturn, ih hcontent]
      · exact fun _ heq _ => hreturn heq
      · exact hreturn

/-- One line feed is in each line end. -/
theorem exists_ending {tail rest : List Char} {count : Nat} (h : hasLoneReturn tail = false)
    (hafter : afterLineEnd? tail = some (count, rest)) :
    hasLoneReturn rest = false ∧
      ∃ ending, tail = ending ++ rest ∧ ending.length = count ∧ ending.count '\n' = 1 := by
  unfold afterLineEnd? at hafter
  split at hafter
  · cases hafter
    exact ⟨h, ['\n'], rfl, rfl, rfl⟩
  · cases hafter
    exact ⟨h, ['\r', '\n'], rfl, rfl, rfl⟩
  · next hlone =>
      cases hafter
      rw [hasLoneReturn] at h
      · contradiction
      · exact hlone
  · contradiction

theorem count_feed_of_isLine {content : List Char} (h : IsLine content) :
    content.count '\n' = 0 := by
  rw [List.count_eq_zero]
  intro hmem
  exact absurd (h '\n' hmem) (by decide)

/-- Before a place on a line there are as many line feeds as lines. -/
theorem count_feed_of_linesFrom {text : List Char} (h : hasLoneReturn text = false) {start : Nat}
    {before after : List Line} {line : Line} (hlines : linesFrom start text = before ++ line :: after)
    {place : Nat} (hstart : line.start ≤ place) (hstop : place ≤ line.stop) :
    (text.take (place - start)).count '\n' = before.length := by
  induction text using line_induction generalizing start before with
  | hline content tail hcontent htail ih =>
      rw [linesFrom_append hcontent htail] at hlines
      rw [hasLoneReturn_append hcontent] at h
      cases before with
      | nil =>
          obtain ⟨rfl, -⟩ := List.cons.inj hlines
          rw [Line.stop] at hstop
          dsimp only at hstop
          rw [List.take_append_of_le_length (by omega)]
          exact count_feed_of_isLine fun c hc => hcontent c (List.mem_of_mem_take hc)
      | cons first before =>
          rw [List.cons_append] at hlines
          obtain ⟨-, hlater⟩ := List.cons.inj hlines
          rw [linesAfter] at hlater
          cases hafter : afterLineEnd? tail with
          | none =>
              rw [hafter] at hlater
              have hcons := List.cons_ne_nil line after
              exact absurd hlater.symm (List.append_ne_nil_of_right_ne_nil before hcons)
          | some later =>
              obtain ⟨count, rest⟩ := later
              rw [hafter] at hlater
              obtain ⟨hrest, ending, rfl, rfl, hfeed⟩ := exists_ending h hafter
              have hmem : line ∈ before ++ line :: after :=
                List.mem_append_right before List.mem_cons_self
              rw [← hlater] at hmem
              -- The place is past the first line and its end, which has the one line feed.
              have hfrom := start_le_of_mem_linesFrom rest _ line hmem
              have hplace : place - start = (content ++ ending).length +
                  (place - (start + content.length + ending.length)) := by
                rw [List.length_append]
                omega
              rw [← List.append_assoc, hplace, List.take_length_add_append, List.count_append,
                List.count_append, count_feed_of_isLine hcontent, hfeed,
                ih _ rest hafter hrest hlater, List.length_cons]
              omega

/-- The number of a line is its place among the lines, from one on. -/
theorem lineNumber_of_linesFrom {text : List Char} (h : hasLoneReturn text = false)
    {before after : List Line} {line : Line} (hlines : linesFrom 0 text = before ++ line :: after)
    {place : Nat} (hstart : line.start ≤ place) (hstop : place ≤ line.stop) :
    lineNumber text place = before.length + 1 := by
  rw [lineNumber]
  exact congrArg (· + 1) (count_feed_of_linesFrom h hlines hstart hstop)

end TapeMachine.Source
