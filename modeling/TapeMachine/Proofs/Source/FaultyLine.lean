import TapeMachine.Proofs.Source.LinePlaces
import TapeMachine.Proofs.Source.LineReach

/-!
The line that an error points at. Lines that fit are matched one after the other, each with a reach
up to its own end, and at the first line that does not fit the pattern for the rest of the document
fails where the content of that line begins. So the reach of the whole pattern is on that line. When
every line fits and the rules have not begun, it is on the last.
-/

namespace TapeMachine.Source

open Grammar Pattern

/-- What the lines of a document belong to: to what stands before the rules, or to these. -/
inductive Region where
  | head
  | rules
deriving DecidableEq

/-- A line may stand in a region, and leaves the lines after it in another or the same. -/
inductive LineFits : Region → List Char → Region → Prop where
  | head {content : List Char} {headers : List HeaderText} (gap : Gap)
      (hcontent : HeadContent content headers) : LineFits .head (gap.1 ++ content) .head
  | keyword {rest : List Char} (indent gap : Gap) (hrest : LineFits .rules rest .rules) :
      LineFits .head (indent.1 ++ (rulesText gap ++ rest)) .rules
  | rules {content : List Char} {rules : List RuleText} (gap : Gap)
      (hcontent : RulesContent content rules) : LineFits .rules (gap.1 ++ content) .rules

/-- The number of the line with the fault: the first that does not fit, or the last of a text whose
lines all fit and leave it without rules. -/
inductive FaultyLine : Region → List (List Char) → Nat → Prop where
  | unfit {region : Region} {line : List Char} {after : List (List Char)}
      (hunfit : ¬ ∃ next, LineFits region line next) : FaultyLine region (line :: after) 1
  | last {line : List Char} (hfits : LineFits .head line .head) : FaultyLine .head [line] 1
  | later {region next : Region} {line : List Char} {after : List (List Char)} {number : Nat}
      (hfits : LineFits region line next) (hlater : FaultyLine next after number) :
      FaultyLine region (line :: after) (number + 1)

/-- The place is on the first line that does not fit, or on the last line of a document whose lines
all fit and leave it without rules. -/
inductive Blamed : Region → List Line → Nat → Prop where
  | unfit {region : Region} {line : Line} {after : List Line} {place : Nat}
      (hunfit : ¬ ∃ next, LineFits region line.content next) (hstart : line.start ≤ place)
      (hstop : place ≤ line.stop) : Blamed region (line :: after) place
  | last {line : Line} {place : Nat} (hfits : LineFits .head line.content .head)
      (hstart : line.start ≤ place) (hstop : place ≤ line.stop) : Blamed .head [line] place
  | later {region next : Region} {line : Line} {after : List Line} {place : Nat}
      (hfits : LineFits region line.content next) (hlater : Blamed next after place) :
      Blamed region (line :: after) place

/-! How a line is judged by its content after the gap it begins with. -/

section Fits

variable {gap : Gap} {content : List Char} {next : Region}

theorem lineFits_rules (hclear : startsClear content = true)
    (h : LineFits .rules (gap.1 ++ content) next) : ∃ rules, RulesContent content rules := by
  generalize hline : gap.1 ++ content = line at h
  cases h with
  | rules other hcontent =>
      obtain ⟨rfl, rfl⟩ := gap_append_inj hclear (takesLine_rules.clear hcontent) hline
      exact ⟨_, hcontent⟩

theorem lineFits_head (hclear : startsClear content = true)
    (h : LineFits .head (gap.1 ++ content) next) :
    (∃ headers, HeadContent content headers) ∨
      ∃ (colonGap : Gap) (rest : List Char), content = rulesText colonGap ++ rest ∧
        LineFits .rules rest .rules := by
  generalize hline : gap.1 ++ content = line at h
  cases h with
  | head other hcontent =>
      obtain ⟨rfl, rfl⟩ := gap_append_inj hclear (takesLine_head.clear hcontent) hline
      exact .inl ⟨_, hcontent⟩
  | keyword indent colonGap hrest =>
      obtain ⟨rfl, rfl⟩ := gap_append_inj hclear (startsClear_rulesText colonGap _) hline
      exact .inr ⟨colonGap, _, rfl, hrest⟩

theorem rulesText_append_inj {gap other : Gap} {rest left : List Char}
    (h : rulesText gap ++ rest = rulesText other ++ left) : rest = left := by
  rw [rulesText_append, rulesText_append] at h
  obtain ⟨-, hcolon⟩ := gap_append_inj rfl rfl (List.append_cancel_left h)
  exact (List.cons.inj hcolon).2

theorem LineFits.not_rules {line : List Char} (hhead : LineFits .head line .head) :
    ¬ LineFits .head line .rules := by
  intro hrules
  cases hrules with
  | @keyword rest indent gap _ =>
      generalize hline : indent.1 ++ (rulesText gap ++ rest) = line at hhead
      cases hhead with
      | head other hcontent =>
          obtain ⟨-, heq⟩ := gap_append_inj (startsClear_rulesText gap rest)
            (takesLine_head.clear hcontent) hline
          exact hcontent.not_beginsRules ⟨gap, rest, heq.symm⟩

/-- A line that fits leaves no choice of the region after it. -/
theorem LineFits.unique {region next other : Region} {line : List Char}
    (h : LineFits region line next) (hother : LineFits region line other) : other = next := by
  cases region with
  | head =>
      cases next with
      | head =>
          cases other with
          | head => rfl
          | rules => exact absurd hother h.not_rules
      | rules =>
          cases other with
          | head => exact absurd h hother.not_rules
          | rules => rfl
  | rules =>
      obtain rfl : next = .rules := by cases h; rfl
      cases hother
      rfl

theorem FaultyLine.unique {region : Region} {lines : List (List Char)} {number other : Nat}
    (h : FaultyLine region lines number) (hother : FaultyLine region lines other) :
    other = number := by
  induction h generalizing other with
  | unfit hunfit =>
      cases hother with
      | unfit => rfl
      | last => rfl
      | later hfits => exact absurd ⟨_, hfits⟩ hunfit
  | last hfits =>
      cases hother with
      | unfit => rfl
      | last => rfl
      | later _ hlater => cases hlater
  | later hfits hlater ih =>
      cases hother with
      | unfit hunfit => exact absurd ⟨_, hfits⟩ hunfit
      | last => cases hlater
      | later hfitsOther hlaterOther =>
          obtain rfl := hfits.unique hfitsOther
          rw [ih hlaterOther]

end Fits

namespace Blamed

variable {region : Region} {lines : List Line} {place : Nat}

theorem le_place (h : Blamed region lines place) {start : Nat}
    (hlines : ∀ line ∈ lines, start ≤ line.start) : start ≤ place := by
  induction h with
  | unfit _ hstart => exact Nat.le_trans (hlines _ List.mem_cons_self) hstart
  | last _ hstart => exact Nat.le_trans (hlines _ List.mem_cons_self) hstart
  | later _ _ ih => exact ih fun line hline => hlines line (List.mem_cons_of_mem _ hline)

/-- A place on the first line moves no blame from where it is. -/
theorem max {start other : Nat} {content tail : List Char}
    (h : Blamed region (⟨start, content⟩ :: linesAfter (start + content.length) tail) place)
    (hother : other ≤ start + content.length) :
    Blamed region (⟨start, content⟩ :: linesAfter (start + content.length) tail)
      (max other place) := by
  generalize hlines : linesAfter (start + content.length) tail = after at h
  cases h with
  | unfit hunfit hstart hstop =>
      exact .unfit hunfit (Nat.le_trans hstart (Nat.le_max_right ..)) (Nat.max_le.2 ⟨hother, hstop⟩)
  | last hfits hstart hstop =>
      exact .last hfits (Nat.le_trans hstart (Nat.le_max_right ..)) (Nat.max_le.2 ⟨hother, hstop⟩)
  | later hfits hlater =>
      have hle : start + content.length ≤ place := by
        apply hlater.le_place
        rw [← hlines]
        exact start_le_of_mem_linesAfter
      rw [Nat.max_eq_right (Nat.le_trans hother hle)]
      exact .later hfits hlater

/-- The line on which a place is to blame is the faulty one. -/
theorem exists_faultyLine (h : Blamed region lines place) :
    ∃ before line after, lines = before ++ line :: after ∧ line.start ≤ place ∧
      place ≤ line.stop ∧ FaultyLine region (lines.map Line.content) (before.length + 1) := by
  induction h with
  | unfit hunfit hstart hstop => exact ⟨[], _, _, rfl, hstart, hstop, .unfit hunfit⟩
  | last hfits hstart hstop => exact ⟨[], _, [], rfl, hstart, hstop, .last hfits⟩
  | @later _ _ first _ _ hfits _ ih =>
      obtain ⟨before, line, after, rfl, hstart, hstop, hfaulty⟩ := ih
      exact ⟨first :: before, line, after, rfl, hstart, hstop, .later hfits hfaulty⟩

end Blamed

/-! The rules. -/

/-- Where no line ends, the end of the text is tried, and nothing else. -/
theorem reach_afterLine_none {text : List Char} (hclear : startsClear text = true)
    (hnone : afterLineEnd? text = none) (offset : Nat) :
    (seq (many (seq lineEnd rulesLine)) endOfText).reach .top ⟨text, offset⟩ =
      endOfText.reach .top ⟨text, offset⟩ := by
  have hskip := skipGap_of_startsClear hclear offset
  have hend : lineEnd.find? .top (Cursor.skipGap ⟨text, offset⟩) = none := by
    rw [hskip, find?_lineEnd, hnone]
    rfl
  have hseq := reach_many_seq_of_none (find?_seq_of_none hend rulesLine) endOfText
  rw [reach_seq_of_none hend, reach_lineEnd, Nat.zero_max, hskip] at hseq
  exact hseq

/-- After a line end the rules reach as far as from a line's start. -/
theorem reach_afterLine {tail rest : List Char} {count : Nat} (htail : endsLine tail = true)
    (hafter : afterLineEnd? tail = some (count, rest)) (offset : Nat) :
    (seq (many (seq lineEnd rulesLine)) endOfText).reach .top ⟨tail, offset⟩ =
      rulesSection.reach .top (Cursor.skipGap ⟨rest, offset + count⟩) := by
  have hskip := skipGap_of_startsClear (startsClear_of_endsLine htail) offset
  have hend : lineEnd.find? .top (Cursor.skipGap ⟨tail, offset⟩) =
      some ⟨⟨rest, offset + count⟩, []⟩ := by
    rw [hskip, find?_lineEnd, hafter]
    rfl
  obtain ⟨found, hfound⟩ : ∃ found, rulesLine.find? .top
      (Context.top.skipGap ⟨rest, offset + count⟩) = some found := ⟨_, rfl⟩
  have hseq := reach_many_seq_of_some shrinks_lineEnd_rulesLine (find?_seq hend hfound) endOfText
  rw [reach_seq_of_some hend, reach_lineEnd, Nat.zero_max, hskip] at hseq
  exact hseq.trans (reach_seq_of_some hfound _).symm

theorem reach_endOfText_of_cons (c : Char) (rest : List Char) (offset : Nat) :
    endOfText.reach .top ⟨c :: rest, offset⟩ = offset := by
  have hnone : endOfText.find? .top ⟨c :: rest, offset⟩ = none := rfl
  exact Nat.le_antisymm (reach_endOfText_le ..) (reach_named_of_none hnone)

section RulesLine

variable {content tail : List Char} (offset : Nat)

theorem reach_rulesSection_line {rules : List RuleText} (h : RulesContent content rules)
    (hcontent : IsLine content) (htail : endsLine tail = true) :
    ∃ other ≤ offset + content.length, rulesSection.reach .top ⟨content ++ tail, offset⟩ =
      max other ((seq (many (seq lineEnd rulesLine)) endOfText).reach .top
        ⟨tail, offset + content.length⟩) := by
  obtain ⟨last, hfound, hlast⟩ := takesLine_rules.found offset h hcontent htail
  refine ⟨_, reach_rulesLine_le (.intro hcontent rfl) htail, ?_⟩
  rw [rulesSection, reach_seq_of_some hfound, Context.skipGap_top, hlast]

/-- At a line of another shape the text would have to end. -/
theorem reach_rulesSection_missed (h : ¬ ∃ rules, RulesContent content rules)
    (hcontent : IsLine content) (htail : endsLine tail = true) (hclear : startsClear content = true) :
    offset ≤ rulesSection.reach .top ⟨content ++ tail, offset⟩ ∧
      rulesSection.reach .top ⟨content ++ tail, offset⟩ ≤ offset + content.length := by
  have hboth := startsClear_append hclear htail
  have hmissed := takesLine_rules.missed offset h hcontent htail hboth
  have hend : (seq (many (seq lineEnd rulesLine)) endOfText).reach .top ⟨content ++ tail, offset⟩ =
      offset := by
    cases content with
    | nil => exact absurd ⟨_, takesLine_rules.blank⟩ h
    | cons c content =>
        have hafter := afterLineEnd?_of_startsLine (isLine_cons.1 hcontent).1 (content ++ tail)
        exact (reach_afterLine_none hboth hafter offset).trans (reach_endOfText_of_cons ..)
  rw [rulesSection, reach_seq_of_some hmissed, Context.skipGap_top, skipGap_of_startsClear hboth,
    hend]
  exact ⟨Nat.le_max_right .., Nat.max_le.2
    ⟨reach_rulesLine_le (.intro hcontent rfl) htail, Nat.le_add_right ..⟩⟩

end RulesLine

/-- Rules that are not found reach up to their first line that does not fit. -/
theorem blamed_rulesSection (text : List Char) (start : Nat)
    (h : rulesSection.find? .top (Cursor.skipGap ⟨text, start⟩) = none) :
    Blamed .rules (linesFrom start text)
      (rulesSection.reach .top (Cursor.skipGap ⟨text, start⟩)) := by
  induction text using line_induction generalizing start with
  | hline content tail hcontent htail ih =>
      obtain ⟨gap, content, rfl, hclear⟩ := exists_gap_content content
      have hline := (isLine_append.1 hcontent).2
      have hskip := skipGap_append start gap.2 (startsClear_append hclear htail)
      have hlength : start + gap.1.length + content.length = start + (gap.1 ++ content).length := by
        rw [List.length_append, Nat.add_assoc]
      rw [List.append_assoc, hskip] at h
      rw [linesFrom_append hcontent htail, List.append_assoc, hskip]
      by_cases hshape : ∃ rules, RulesContent content rules
      · obtain ⟨rules, hrules⟩ := hshape
        rw [find?_rulesSection_line _ hrules hline htail, Option.map_eq_none_iff] at h
        obtain ⟨other, hother, hreach⟩ :=
          reach_rulesSection_line (start + gap.1.length) hrules hline htail
        rw [hreach]
        rw [hlength] at hother
        refine Blamed.max ?_ hother
        rw [linesAfter]
        cases hafter : afterLineEnd? tail with
        | none =>
            obtain rfl := eq_nil_of_afterLineEnd? htail hafter
            rw [find?_afterLine_none rfl rfl, find?_endOfText] at h
            cases h
        | some after =>
            obtain ⟨count, rest⟩ := after
            rw [find?_afterLine htail hafter, hlength] at h
            rw [reach_afterLine htail hafter, hlength]
            exact .later (.rules gap hrules) (ih count rest hafter _ h)
      · obtain ⟨hstart, hstop⟩ := reach_rulesSection_missed (start + gap.1.length) hshape hline htail
          hclear
        refine .unfit ?_ (Nat.le_of_add_right_le hstart) (Nat.le_trans hstop (Nat.le_of_eq hlength))
        rintro ⟨next, hfits⟩
        exact hshape (lineFits_rules hclear hfits)

/-! The head. -/

section HeadLine

variable {content tail : List Char} (offset : Nat)

theorem reach_rulesKeyword_of_not (h : ¬ BeginsRules content) (hcontent : IsLine content)
    (htail : endsLine tail = true) :
    (seq rulesKeyword rulesSection).reach .top ⟨content ++ tail, offset⟩ = offset := by
  have hnone := find?_rulesKeyword_eq_none (mt (beginsRules_append hcontent htail).1 h) offset
  rw [reach_seq_of_none hnone]
  exact Nat.le_antisymm (reach_rulesKeyword_le ..) (reach_named_of_none hnone)

/-- Where no line of the head goes on to another, the rules would have to begin. -/
theorem reach_documentBody_of_none (hcontent : IsLine content) (htail : endsLine tail = true)
    (hclear : startsClear content = true)
    (h : headerLine.find? .top ⟨content ++ tail, offset⟩ = none) :
    ∃ other ≤ offset + content.length, documentBody.reach .top ⟨content ++ tail, offset⟩ =
      max other ((seq rulesKeyword rulesSection).reach .top ⟨content ++ tail, offset⟩) := by
  have hskip := skipGap_of_startsClear (startsClear_append hclear htail) offset
  refine ⟨_, reach_headerLine_le (.intro hcontent rfl) htail, ?_⟩
  rw [← hskip] at h ⊢
  exact reach_many_seq_of_none h _

theorem reach_documentBody_missed (hcontent : IsLine content) (htail : endsLine tail = true)
    (hclear : startsClear content = true) (hnot : ¬ BeginsRules content)
    (h : headerLine.find? .top ⟨content ++ tail, offset⟩ = none) :
    offset ≤ documentBody.reach .top ⟨content ++ tail, offset⟩ ∧
      documentBody.reach .top ⟨content ++ tail, offset⟩ ≤ offset + content.length := by
  obtain ⟨other, hother, hreach⟩ := reach_documentBody_of_none offset hcontent htail hclear h
  rw [hreach, reach_rulesKeyword_of_not offset hnot hcontent htail]
  exact ⟨Nat.le_max_right .., Nat.max_le.2 ⟨hother, Nat.le_add_right ..⟩⟩

theorem reach_documentBody_keyword (gap : Gap) {rest : List Char}
    (hcontent : IsLine (rulesText gap ++ rest)) (htail : endsLine tail = true) :
    ∃ other ≤ offset + (rulesText gap ++ rest).length,
      documentBody.reach .top ⟨rulesText gap ++ rest ++ tail, offset⟩ =
        max other (rulesSection.reach .top
          (Cursor.skipGap ⟨rest ++ tail, offset + (rulesText gap).length⟩)) := by
  have hclear := startsClear_rulesText gap rest
  have hmissed := find?_headerLine_rulesText offset gap hcontent htail
  obtain ⟨other, hother, hreach⟩ :=
    reach_documentBody_of_none offset hcontent htail hclear hmissed
  have hkeyword := find?_rulesKeyword gap (rest ++ tail) offset
  rw [← List.append_assoc] at hkeyword
  refine ⟨max other (rulesKeyword.reach .top ⟨rulesText gap ++ rest ++ tail, offset⟩),
    Nat.max_le.2 ⟨hother, ?_⟩, ?_⟩
  · exact Nat.le_trans (reach_rulesKeyword_le ..) (Nat.le_add_right ..)
  · rw [hreach, reach_seq_of_some hkeyword, Nat.max_assoc, Context.skipGap_top]

theorem reach_documentBody_head {rest : List Char} {count : Nat} {headers : List HeaderText}
    (h : HeadContent content headers) (hcontent : IsLine content) (htail : endsLine tail = true)
    (hafter : afterLineEnd? tail = some (count, rest)) :
    ∃ other ≤ offset + content.length, documentBody.reach .top ⟨content ++ tail, offset⟩ =
      max other (documentBody.reach .top
        (Cursor.skipGap ⟨rest, offset + content.length + count⟩)) := by
  have hfound := find?_headerLine offset h hcontent htail hafter
  have hskip := skipGap_of_startsClear (startsClear_append (takesLine_head.clear h) htail) offset
  refine ⟨_, reach_headerLine_le (.intro hcontent rfl) htail, ?_⟩
  rw [← hskip] at hfound ⊢
  exact reach_many_seq_of_some shrinks_headerLine hfound _

end HeadLine

/-- A line that begins the rules is to blame when what it has left is. -/
theorem Blamed.keyword {start place : Nat} {rest : List Char} {after : List Line} (indent gap : Gap)
    (h : Blamed .rules (⟨start + indent.1.length + (rulesText gap).length, rest⟩ :: after) place) :
    Blamed .head (⟨start, indent.1 ++ (rulesText gap ++ rest)⟩ :: after) place := by
  have hstop : Line.stop ⟨start + indent.1.length + (rulesText gap).length, rest⟩ =
      Line.stop ⟨start, indent.1 ++ (rulesText gap ++ rest)⟩ := by
    simp only [Line.stop, List.length_append, Nat.add_assoc]
  cases h with
  | unfit hunfit hstart hle =>
      refine .unfit ?_ ?_ (hle.trans_eq hstop)
      · rintro ⟨next, hfits⟩
        rcases lineFits_head (startsClear_rulesText gap rest) hfits with
          ⟨headers, hhead⟩ | ⟨other, left, heq, hrest⟩
        · exact hhead.not_beginsRules ⟨gap, rest, rfl⟩
        · rw [← rulesText_append_inj heq] at hrest
          exact hunfit ⟨.rules, hrest⟩
      · rw [Nat.add_assoc] at hstart
        exact Nat.le_of_add_right_le hstart
  | later hfits hlater =>
      cases hfits with
      | rules other hcontent => exact .later (.keyword indent gap (.rules other hcontent)) hlater

/-- A text that is not found as a document reaches up to the first line that does not fit, or to its
last line. -/
theorem blamed_documentBody (text : List Char) (start : Nat)
    (h : documentBody.find? .top (Cursor.skipGap ⟨text, start⟩) = none) :
    Blamed .head (linesFrom start text)
      (documentBody.reach .top (Cursor.skipGap ⟨text, start⟩)) := by
  induction text using line_induction generalizing start with
  | hline content tail hcontent htail ih =>
      obtain ⟨gap, content, rfl, hclear⟩ := exists_gap_content content
      have hline := (isLine_append.1 hcontent).2
      have hskip := skipGap_append start gap.2 (startsClear_append hclear htail)
      have hlength : start + gap.1.length + content.length = start + (gap.1 ++ content).length := by
        rw [List.length_append, Nat.add_assoc]
      rw [List.append_assoc, hskip] at h
      rw [linesFrom_append hcontent htail, List.append_assoc, hskip]
      -- What was tried on a line that fits stays on it, so the blame is with the lines after it.
      by_cases hhead : ∃ headers, HeadContent content headers
      · obtain ⟨headers, hheaders⟩ := hhead
        cases hafter : afterLineEnd? tail with
        | none =>
            rw [linesAfter, hafter]
            have hlast := find?_headerLine_last (start + gap.1.length) hheaders hline htail hafter
            obtain ⟨hstart, hstop⟩ := reach_documentBody_missed _ hline htail hclear
              hheaders.not_beginsRules hlast
            exact .last (.head gap hheaders) (Nat.le_of_add_right_le hstart)
              (hstop.trans_eq hlength)
        | some after =>
            obtain ⟨count, rest⟩ := after
            rw [find?_documentBody_head _ hheaders hline htail hafter, Option.map_eq_none_iff,
              hlength] at h
            obtain ⟨other, hother, hreach⟩ :=
              reach_documentBody_head (start + gap.1.length) hheaders hline htail hafter
            rw [hlength] at hother hreach
            rw [hreach]
            refine Blamed.max ?_ hother
            rw [linesAfter, hafter]
            exact .later (.head gap hheaders) (ih count rest hafter _ h)
      · by_cases hbegins : BeginsRules content
        · obtain ⟨colonGap, rest, rfl⟩ := hbegins
          rw [find?_documentBody_keyword _ colonGap hline htail, Option.map_eq_none_iff] at h
          obtain ⟨other, hother, hreach⟩ :=
            reach_documentBody_keyword (start + gap.1.length) colonGap hline htail
          rw [hlength] at hother
          rw [hreach]
          have hblamed := blamed_rulesSection (rest ++ tail) _ h
          rw [linesFrom_after_rulesText hline htail, hlength] at hblamed
          exact (hblamed.keyword gap colonGap).max hother
        · have hmissed := find?_headerLine_missed (start + gap.1.length) hhead hline htail hclear
          obtain ⟨hstart, hstop⟩ := reach_documentBody_missed _ hline htail hclear hbegins hmissed
          refine .unfit ?_ (Nat.le_of_add_right_le hstart) (hstop.trans_eq hlength)
          rintro ⟨next, hfits⟩
          rcases lineFits_head hclear hfits with hother | ⟨colonGap, rest, rfl, -⟩
          · exact hhead hother
          · exact hbegins ⟨colonGap, rest, rfl⟩

end TapeMachine.Source
