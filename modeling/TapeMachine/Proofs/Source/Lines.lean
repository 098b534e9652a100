import TapeMachine.Proofs.Grammar.Repetition
import TapeMachine.Proofs.Source.Word
import TapeMachine.Source.Place

/-!
The lines of a document. A line ends at a line feed, at a carriage return with a line feed after it,
or at a lone carriage return. A text is a line and then, unless it ends there, a line end and the
other lines, and statements about documents are by induction along this division.
-/

namespace TapeMachine.Source

open Grammar Pattern

/-- A line without its end, and the place where it begins. -/
structure Line where
  start : Nat
  content : List Char
deriving DecidableEq

/-- The lines of a text, where the text begins at a given place. -/
def linesFrom (start : Nat) : List Char → List Line
  | [] => [⟨start, []⟩]
  | '\n' :: rest => ⟨start, []⟩ :: linesFrom (start + 1) rest
  | '\r' :: '\n' :: rest => ⟨start, []⟩ :: linesFrom (start + 2) rest
  | '\r' :: rest => ⟨start, []⟩ :: linesFrom (start + 1) rest
  | c :: rest => (linesFrom (start + 1) rest).modifyHead fun line => ⟨start, c :: line.content⟩

/-- The number of characters of the line end that a text begins with, and the text after it. -/
def afterLineEnd? : List Char → Option (Nat × List Char)
  | '\n' :: rest => some (1, rest)
  | '\r' :: '\n' :: rest => some (2, rest)
  | '\r' :: rest => some (1, rest)
  | _ => none

/-- The lines after the first, from where that line ends. -/
def linesAfter (start : Nat) (tail : List Char) : List Line :=
  match afterLineEnd? tail with
  | none => []
  | some (count, rest) => linesFrom (start + count) rest

def IsLine (content : List Char) : Prop :=
  ∀ c ∈ content, isLineEnd c = false

instance (content : List Char) : Decidable (IsLine content) :=
  decidable_of_iff (content.all (!isLineEnd ·) = true) (by simp [IsLine])

/-- Whether a line ends here. -/
def endsLine : List Char → Bool
  | [] => true
  | c :: _ => isLineEnd c

theorem isLineEnd_eq_true {c : Char} : isLineEnd c = true ↔ c = '\r' ∨ c = '\n' := by
  simp [isLineEnd]

theorem isLineEnd_eq_false {c : Char} : isLineEnd c = false ↔ c ≠ '\r' ∧ c ≠ '\n' := by
  simp [isLineEnd]

theorem isLine_gap (gap : Gap) : IsLine gap.1 := by
  intro c hc
  rcases Text.isGap_eq_true.1 (gap.2 c hc) with rfl | rfl <;> rfl

theorem isLine_append {first second : List Char} :
    IsLine (first ++ second) ↔ IsLine first ∧ IsLine second := by
  simp only [IsLine, List.mem_append]
  exact ⟨fun h => ⟨fun c hc => h c (.inl hc), fun c hc => h c (.inr hc)⟩,
    fun h c hc => hc.elim (h.1 c) (h.2 c)⟩

theorem isLine_cons {c : Char} {rest : List Char} :
    IsLine (c :: rest) ↔ isLineEnd c = false ∧ IsLine rest :=
  List.forall_mem_cons

theorem linesFrom_cons {c : Char} (h : isLineEnd c = false) (start : Nat) (rest : List Char) :
    linesFrom start (c :: rest) =
      (linesFrom (start + 1) rest).modifyHead fun line => ⟨start, c :: line.content⟩ := by
  obtain ⟨hreturn, hfeed⟩ := isLineEnd_eq_false.1 h
  rw [linesFrom]
  · exact hfeed
  · exact fun _ heq _ => hreturn heq
  · exact hreturn

theorem linesFrom_of_endsLine {tail : List Char} (h : endsLine tail = true) (start : Nat) :
    linesFrom start tail = ⟨start, []⟩ :: linesAfter start tail := by
  cases tail with
  | nil => rfl
  | cons c rest =>
      rcases isLineEnd_eq_true.1 h with rfl | rfl
      · cases rest with
        | nil => rfl
        | cons d rest =>
            by_cases hd : d = '\n'
            · subst hd
              rfl
            · rw [linesFrom, linesAfter, afterLineEnd?]
              · simpa using hd
              · simpa using hd
      · rfl

/-- A text that begins with a line has it as its first line. -/
theorem linesFrom_append {content tail : List Char} (hcontent : IsLine content)
    (htail : endsLine tail = true) (start : Nat) :
    linesFrom start (content ++ tail) =
      ⟨start, content⟩ :: linesAfter (start + content.length) tail := by
  induction content generalizing start with
  | nil => exact linesFrom_of_endsLine htail start
  | cons c content ih =>
      have hrest := ih (fun d hd => hcontent d (List.mem_cons_of_mem c hd)) (start + 1)
      rw [List.cons_append, linesFrom_cons (hcontent c List.mem_cons_self), hrest,
        List.modifyHead_cons, List.length_cons]
      congr 2
      omega

theorem exists_line (text : List Char) :
    ∃ content tail, text = content ++ tail ∧ IsLine content ∧ endsLine tail = true := by
  refine ⟨text.takeWhile (!isLineEnd ·), text.dropWhile (!isLineEnd ·),
    List.takeWhile_append_dropWhile.symm, ?_, ?_⟩
  · intro c hc
    have hnot := List.mem_takeWhile_imp hc
    rwa [Bool.not_eq_true'] at hnot
  · have hhead := List.head?_dropWhile_not (!isLineEnd ·) text
    cases htail : text.dropWhile (!isLineEnd ·) with
    | nil => rfl
    | cons c tail =>
        rw [htail] at hhead
        simpa [endsLine] using hhead

theorem length_of_afterLineEnd? {text rest : List Char} {count : Nat}
    (h : afterLineEnd? text = some (count, rest)) : rest.length < text.length := by
  unfold afterLineEnd? at h
  split at h
  · cases h
    exact Nat.lt_succ_self _
  · cases h
    simp only [List.length_cons]
    omega
  · cases h
    exact Nat.lt_succ_self _
  · contradiction

theorem eq_append_of_afterLineEnd? {text rest : List Char} {count : Nat}
    (h : afterLineEnd? text = some (count, rest)) :
    ∃ ending, text = ending ++ rest ∧ ending.length = count := by
  unfold afterLineEnd? at h
  split at h
  · cases h
    exact ⟨['\n'], rfl, rfl⟩
  · cases h
    exact ⟨['\r', '\n'], rfl, rfl⟩
  · cases h
    exact ⟨['\r'], rfl, rfl⟩
  · contradiction

theorem afterLineEnd?_of_startsLine {c : Char} (h : isLineEnd c = false) (rest : List Char) :
    afterLineEnd? (c :: rest) = none := by
  obtain ⟨hreturn, hfeed⟩ := isLineEnd_eq_false.1 h
  unfold afterLineEnd?
  split <;> simp_all

theorem eq_nil_of_afterLineEnd? {tail : List Char} (h : endsLine tail = true)
    (hnone : afterLineEnd? tail = none) : tail = [] := by
  cases tail with
  | nil => rfl
  | cons c rest =>
      rcases isLineEnd_eq_true.1 h with rfl | rfl
      · unfold afterLineEnd? at hnone
        split at hnone <;> simp_all
      · contradiction

/-- What holds of a text when it holds of what follows its first line holds of every text. -/
theorem line_induction {Holds : List Char → Prop}
    (hline : ∀ content tail, IsLine content → endsLine tail = true →
      (∀ count rest, afterLineEnd? tail = some (count, rest) → Holds rest) →
      Holds (content ++ tail))
    (text : List Char) : Holds text := by
  induction hlength : text.length using Nat.strong_induction_on generalizing text with
  | h length ih =>
      obtain ⟨content, tail, rfl, hcontent, htail⟩ := exists_line text
      apply hline content tail hcontent htail
      intro count rest hafter
      have hless := length_of_afterLineEnd? hafter
      rw [List.length_append] at hlength
      exact ih rest.length (by omega) rest rfl

theorem startsClear_of_endsLine {tail : List Char} (h : endsLine tail = true) :
    startsClear tail = true := by
  cases tail with
  | nil => rfl
  | cons c rest => rcases isLineEnd_eq_true.1 h with rfl | rfl <;> rfl

theorem startsClear_of_append {content tail : List Char} (h : startsClear (content ++ tail) = true) :
    startsClear content = true := by
  cases content with
  | nil => rfl
  | cons c content => exact h

theorem startsClear_append {content tail : List Char} (h : startsClear content = true)
    (htail : endsLine tail = true) : startsClear (content ++ tail) = true := by
  cases content with
  | nil => exact startsClear_of_endsLine htail
  | cons c content => exact h

theorem exists_gap_content (content : List Char) :
    ∃ (gap : Gap) (rest : List Char), content = gap.1 ++ rest ∧ startsClear rest = true := by
  obtain ⟨gap, hgap, hcontent, -, hclear⟩ := exists_gap ⟨content, 0⟩
  exact ⟨⟨gap, hgap⟩, _, hcontent, hclear⟩

theorem endsWord_of_endsLine {tail : List Char} (h : endsLine tail = true) :
    endsWord tail = true := by
  cases tail with
  | nil => rfl
  | cons c rest => rcases isLineEnd_eq_true.1 h with rfl | rfl <;> rfl

/-- A text has one first line. -/
theorem line_append_inj {content other tail rest : List Char} (hcontent : IsLine content)
    (hother : IsLine other) (htail : endsLine tail = true) (hrest : endsLine rest = true)
    (h : content ++ tail = other ++ rest) : content = other ∧ tail = rest := by
  induction content generalizing other with
  | nil =>
      cases other with
      | nil => exact ⟨rfl, h⟩
      | cons c other =>
          rw [List.nil_append, List.cons_append] at h
          rw [h, endsLine, hother c List.mem_cons_self] at htail
          cases htail
  | cons c content ih =>
      cases other with
      | nil =>
          rw [List.nil_append, List.cons_append] at h
          rw [← h, endsLine, hcontent c List.mem_cons_self] at hrest
          cases hrest
      | cons d other =>
          obtain ⟨rfl, hboth⟩ := List.cons.inj h
          obtain ⟨rfl, rfl⟩ := ih (fun e he => hcontent e (List.mem_cons_of_mem c he))
            (fun e he => hother e (List.mem_cons_of_mem c he)) hboth
          exact ⟨rfl, rfl⟩

/-- What a text begins with, if no line ends in it, is in its first line. -/
theorem exists_of_line_eq_append {content tail first rest : List Char} (hcontent : IsLine content)
    (htail : endsLine tail = true) (hfirst : IsLine first) (h : content ++ tail = first ++ rest) :
    ∃ left, content = first ++ left ∧ rest = left ++ tail := by
  obtain ⟨left, other, rfl, hleft, hother⟩ := exists_line rest
  have hboth : IsLine (first ++ left) := by
    intro c hc
    rcases List.mem_append.1 hc with hc | hc
    · exact hfirst c hc
    · exact hleft c hc
  rw [← List.append_assoc] at h
  obtain ⟨rfl, rfl⟩ := line_append_inj hcontent hboth htail hother h
  exact ⟨left, rfl, rfl⟩

/-! What the patterns for line ends, values and comments find. -/

theorem after?_cons_eq_none {c : Char} {beginning text : List Char}
    (h : ∀ rest, text ≠ c :: rest) : after? (c :: beginning) text = none := by
  cases hafter : after? (c :: beginning) text with
  | none => rfl
  | some rest => exact absurd (after?_eq_some_iff.1 hafter) (h _)

theorem find?_lineEnd (context : Context) (text : List Char) (offset : Nat) :
    lineEnd.find? context ⟨text, offset⟩ =
      (afterLineEnd? text).map fun (count, rest) => ⟨⟨rest, offset + count⟩, []⟩ := by
  have hfeed : "\n".toList = ['\n'] := rfl
  have hreturn : "\r".toList = ['\r'] := rfl
  have hboth : "\r\n".toList = ['\r', '\n'] := rfl
  unfold afterLineEnd?
  simp only [lineEnd, literal, find?, hfeed, hreturn, hboth]
  split
  · simp [after?, Cursor.advance]
  · simp [after?, Cursor.advance]
  · next rest hlone =>
      have hnone : after? ['\n'] rest = none := after?_cons_eq_none hlone
      simp [after?, hnone, Cursor.advance]
  · next hfeed _ hreturn =>
      rw [after?_cons_eq_none hfeed, after?_cons_eq_none hreturn, after?_cons_eq_none hreturn]
      rfl

theorem isSome_afterLineEnd? (c : Char) (rest : List Char) :
    (afterLineEnd? (c :: rest)).isSome = isLineEnd c := by
  cases h : isLineEnd c with
  | false => rw [afterLineEnd?_of_startsLine h, Option.isSome_none]
  | true =>
      cases hafter : afterLineEnd? (c :: rest) with
      | none =>
          have hends : endsLine (c :: rest) = true := h
          cases eq_nil_of_afterLineEnd? hends hafter
      | some after => rfl

theorem shrinks_lineEnd : Shrinks (lineEnd.find? .top) := by
  intro cursor found h
  rw [find?_lineEnd, Option.map_eq_some_iff] at h
  obtain ⟨⟨count, rest⟩, hafter, rfl⟩ := h
  exact length_of_afterLineEnd? hafter

theorem find?_notAhead_lineEnd (joined : Bool) (c : Char) (rest : List Char) (offset : Nat) :
    (notAhead lineEnd).find? ⟨.consume, joined⟩ ⟨c :: rest, offset⟩ =
      if isLineEnd c then none else some ⟨⟨c :: rest, offset⟩, []⟩ := by
  rw [find?_notAhead, find?_lineEnd, Option.isSome_map, isSome_afterLineEnd?]

theorem takesOne_restOfLine :
    TakesOne ((seq (notAhead lineEnd) any).find? ⟨.consume, true⟩) (!endsLine ·) where
  nil _ := rfl
  cons c rest offset := by
    rw [find?, find?_notAhead_lineEnd, endsLine]
    cases isLineEnd c <;> rfl

theorem takeRun_line {content tail : List Char} (hcontent : IsLine content)
    (htail : endsLine tail = true) : takeRun (!endsLine ·) (content ++ tail) = content := by
  induction content with
  | nil =>
      cases tail with
      | nil => rfl
      | cons c tail =>
          rw [List.nil_append, takeRun_cons, htail, Bool.not_true, if_neg Bool.false_ne_true]
  | cons c content ih =>
      have hc : endsLine (c :: (content ++ tail)) = false := hcontent c List.mem_cons_self
      rw [List.cons_append, takeRun_cons, hc, ih fun d hd => hcontent d (List.mem_cons_of_mem c hd)]
      rfl

/-- A value is what the line has left, its last blanks included. -/
theorem find?_value {value tail : List Char} (hvalue : IsLine value) (htail : endsLine tail = true)
    (offset : Nat) :
    (named .value true restOfLine).find? .top ⟨value ++ tail, offset⟩ =
      some ⟨⟨tail, offset + value.length⟩, [.mk Term.value offset value []]⟩ := by
  apply find?_named
  rw [restOfLine, takesOne_restOfLine.find?_many, takeRun_line hvalue htail, List.drop_left]

/-! A comment is matched character by character, with gaps between. -/

theorem shrinks_any : Shrinks ((any : Pattern Term).find? .top) := by
  intro cursor found h
  rw [find?] at h
  split at h
  · contradiction
  · next hrest =>
      cases h
      rw [hrest]
      exact Nat.lt_succ_self _

theorem shrinks_restOfLine : Shrinks ((seq (notAhead lineEnd) any).find? .top) :=
  shrinks_any.seq_right _

theorem skipGap_cons {c : Char} (h : Text.isGap c = true) (rest : List Char) (offset : Nat) :
    Cursor.skipGap ⟨c :: rest, offset⟩ = Cursor.skipGap ⟨rest, offset + 1⟩ := by
  simp only [Cursor.skipGap, Cursor.advance, List.takeWhile_cons_of_pos h,
    List.dropWhile_cons_of_pos h, List.length_cons]
  congr 1
  omega

theorem find?_restOfLine_character {c : Char} (hline : isLineEnd c = false)
    (hgap : Text.isGap c = false) (rest : List Char) (offset : Nat) :
    (seq (notAhead lineEnd) any).find? .top (Cursor.skipGap ⟨c :: rest, offset⟩) =
      some ⟨⟨rest, offset + 1⟩, []⟩ := by
  have hskip : Cursor.skipGap ⟨c :: rest, offset⟩ = ⟨c :: rest, offset⟩ := by
    apply skipGap_of_startsClear
    simp [startsClear, hgap]
  have hahead := find?_notAhead_lineEnd false c rest offset
  rw [hline, if_neg Bool.false_ne_true] at hahead
  have hany : (any : Pattern Term).find? .top (Context.top.skipGap ⟨c :: rest, offset⟩) =
      some ⟨⟨rest, offset + 1⟩, []⟩ := by
    rw [Context.skipGap_top, hskip]
    rfl
  rw [hskip]
  exact find?_seq hahead hany

theorem find?_restOfLine_end {tail : List Char} (htail : endsLine tail = true) (offset : Nat) :
    (seq (notAhead lineEnd) any).find? .top (Cursor.skipGap ⟨tail, offset⟩) = none := by
  rw [skipGap_of_startsClear (startsClear_of_endsLine htail)]
  cases tail with
  | nil => rfl
  | cons c tail =>
      have hahead := find?_notAhead_lineEnd false c tail offset
      rw [show isLineEnd c = true from htail, if_pos rfl] at hahead
      rw [find?, Context.top, hahead]
      rfl

theorem repeated_restOfLine {content tail : List Char} (hcontent : IsLine content)
    (htail : endsLine tail = true) (offset : Nat) :
    ((seq (notAhead lineEnd) any).repeated ⟨content ++ tail, offset⟩).cursor.skipGap =
        ⟨tail, offset + content.length⟩ ∧
      ((seq (notAhead lineEnd) any).repeated ⟨content ++ tail, offset⟩).nodes = [] := by
  induction content generalizing offset with
  | nil =>
      rw [List.nil_append, repeated_of_none (find?_restOfLine_end htail offset)]
      exact ⟨skipGap_of_startsClear (startsClear_of_endsLine htail) offset, rfl⟩
  | cons c content ih =>
      have hrest := ih (fun d hd => hcontent d (List.mem_cons_of_mem c hd)) (offset + 1)
      rw [List.cons_append, List.length_cons, Nat.add_comm content.length, ← Nat.add_assoc]
      cases hgap : Text.isGap c with
      | true =>
          have hcongr := repeated_congr shrinks_restOfLine
            (skipGap_cons hgap (content ++ tail) offset)
          exact ⟨hcongr.1.trans hrest.1, hcongr.2.trans hrest.2⟩
      | false =>
          have hfound := find?_restOfLine_character (hcontent c List.mem_cons_self) hgap
            (content ++ tail) offset
          rw [repeated_of_some shrinks_restOfLine hfound]
          exact hrest

/-- A comment takes the whole line, but for the blanks at its end. -/
theorem find?_comment {text tail : List Char} (htext : IsLine text) (htail : endsLine tail = true)
    (offset : Nat) :
    ∃ last, comment.find? .top ⟨'#' :: (text ++ tail), offset⟩ = some ⟨last, []⟩ ∧
      last.skipGap = ⟨tail, offset + 1 + text.length⟩ := by
  obtain ⟨last, hlast, hcursor, hnodes⟩ :=
    find?_many shrinks_restOfLine ⟨text ++ tail, offset + 1⟩
  have hrepeated := repeated_restOfLine htext htail (offset + 1)
  have hsign : (literal "#").find? .top ⟨'#' :: (text ++ tail), offset⟩ =
      some ⟨⟨text ++ tail, offset + 1⟩, []⟩ :=
    find?_exactly_append ['#'] (text ++ tail) .top offset
  refine ⟨last.cursor, ?_, hcursor.trans hrepeated.1⟩
  rw [hrepeated.2] at hnodes
  rw [comment, restOfLine, find?_seq hsign hlast, hnodes]
  rfl

theorem find?_comment_eq_some {cursor : Cursor} {found : Found Term}
    (h : comment.find? .top cursor = some found) : ∃ rest, cursor.rest = '#' :: rest := by
  obtain ⟨one, -, hone, -⟩ := find?_seq_eq_some.1 h
  exact ⟨_, (find?_exactly_eq_some.1 hone).1⟩

end TapeMachine.Source
