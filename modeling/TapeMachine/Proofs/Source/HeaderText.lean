import TapeMachine.Proofs.Source.Lines
import TapeMachine.Proofs.Source.RuleText

/-!
The lines before the rules. A header is a key, a colon and a value, with gaps around the colon, and
the value is all that the line has left. A header with the key that begins the rules is no header.
-/

namespace TapeMachine.Source

open Grammar Pattern

abbrev Key := { key : List Char // key ≠ [] ∧ ∀ c ∈ key, isKeyCharacter c = true }

/-- A value begins where the gap after the colon ends. -/
abbrev Value := { value : List Char // startsClear value = true }

/-- A header as it is written, without the gap before it. -/
structure HeaderText where
  key : Key
  beforeColon : Gap
  afterColon : Gap
  value : Value

namespace HeaderText

variable (header : HeaderText)

def text : List Char :=
  header.key.1 ++ (header.beforeColon.1 ++ ':' :: (header.afterColon.1 ++ header.value.1))

/-- The number of characters before the value. -/
def valueStart : Nat :=
  header.key.1.length + header.beforeColon.1.length + 1 + header.afterColon.1.length

def node (offset : Nat) : Node Term :=
  .mk .header offset header.text [.mk .key offset header.key.1 [],
    .mk .value (offset + header.valueStart) header.value.1 []]

theorem length_text : header.text.length = header.valueStart + header.value.1.length := by
  simp only [text, valueStart, List.length_append, List.length_cons]
  omega

end HeaderText

/-- The keyword that begins the rules, and its colon. -/
def rulesText (gap : Gap) : List Char :=
  "rules".toList ++ (gap.1 ++ [':'])

/-- The text begins the rules. -/
def BeginsRules (text : List Char) : Prop :=
  ∃ (gap : Gap) (rest : List Char), text = rulesText gap ++ rest

theorem isLineEnd_of_isKeyCharacter {c : Char} (h : isKeyCharacter c = true) :
    isLineEnd c = false := by
  rw [isLineEnd_eq_false]
  constructor
  · rintro rfl
    contradiction
  · rintro rfl
    contradiction

/-! The keyword before the rules. -/

theorem rulesText_append (gap : Gap) (rest : List Char) :
    rulesText gap ++ rest = "rules".toList ++ (gap.1 ++ ':' :: rest) := by
  rw [rulesText, List.append_assoc, List.append_assoc]
  rfl

theorem isSome_find?_rulesKeyword (purpose : Purpose) (text : List Char) (offset : Nat) :
    (rulesKeyword.find? ⟨purpose, false⟩ ⟨text, offset⟩).isSome = true ↔ BeginsRules text := by
  rw [rulesKeyword, find?, Option.isSome_map]
  constructor
  · intro h
    obtain ⟨found, hfound⟩ := Option.isSome_iff_exists.1 h
    obtain ⟨one, two, hone, htwo, -⟩ := find?_seq_eq_some.1 hfound
    obtain ⟨gap, hgap⟩ := find?_literal_eq_some htwo
    refine ⟨gap, two.cursor.rest, ?_⟩
    rw [rulesText_append]
    exact (find?_exactly_eq_some.1 hone).1.trans (congrArg _ hgap)
  · rintro ⟨gap, rest, rfl⟩
    rw [rulesText_append]
    have hword := find?_exactly_append "rules".toList (gap.1 ++ ':' :: rest) ⟨purpose, false⟩ offset
    have hcolon := find?_literal gap (offset + 5) ":" (show startsClear (':' :: rest) = true from rfl)
      ⟨purpose, false⟩
    exact Option.isSome_of_eq_some (find?_seq hword hcolon)

theorem find?_rulesKeyword (gap : Gap) (rest : List Char) (offset : Nat) :
    rulesKeyword.find? .top ⟨rulesText gap ++ rest, offset⟩ =
      some ⟨⟨rest, offset + (rulesText gap).length⟩,
        [.mk .rulesKeyword offset (rulesText gap) []]⟩ := by
  apply find?_named
  have hword := find?_exactly_append "rules".toList (gap.1 ++ ':' :: rest) .top offset
  have hcolon := find?_literal gap (offset + 5) ":" (show startsClear (':' :: rest) = true from rfl)
    .top
  have hlength : offset + (rulesText gap).length = offset + 5 + gap.1.length + 1 := by
    rw [rulesText, List.length_append, List.length_append]
    exact (Nat.add_assoc ..).symm
  rw [rulesText_append, hlength]
  exact find?_seq hword hcolon

theorem not_beginsRules_of_endsLine {tail : List Char} (h : endsLine tail = true) :
    ¬ BeginsRules tail := by
  rintro ⟨gap, rest, rfl⟩
  contradiction

theorem isLine_rulesText (gap : Gap) : IsLine (rulesText gap) := by
  rw [rulesText, isLine_append, isLine_append]
  exact ⟨by decide, isLine_gap gap, by decide⟩

theorem beginsRules_append {content tail : List Char} (hcontent : IsLine content)
    (htail : endsLine tail = true) : BeginsRules (content ++ tail) ↔ BeginsRules content := by
  constructor
  · rintro ⟨gap, rest, h⟩
    obtain ⟨left, rfl, -⟩ := exists_of_line_eq_append hcontent htail (isLine_rulesText gap) h
    exact ⟨gap, left, rfl⟩
  · rintro ⟨gap, rest, rfl⟩
    exact ⟨gap, rest ++ tail, List.append_assoc ..⟩

/-! Headers. -/

theorem find?_notAhead_rulesKeyword {text : List Char} {offset : Nat} {found : Found Term} :
    (notAhead rulesKeyword).find? .top ⟨text, offset⟩ = some found ↔
      ¬ BeginsRules text ∧ found = ⟨⟨text, offset⟩, []⟩ := by
  have hkeyword := isSome_find?_rulesKeyword .absent text offset
  rw [Context.top, find?_notAhead]
  split
  · next hsome => simp [hkeyword.1 hsome]
  · next hnone => simp [mt hkeyword.2 hnone, eq_comm]

theorem takesOne_key :
    TakesOne ((oneOf isKeyCharacter : Pattern Term).find? ⟨.consume, true⟩)
      (·.head?.any isKeyCharacter) where
  nil _ := rfl
  cons _ _ _ := rfl

theorem find?_key (key : Key) {rest : List Char} (offset : Nat)
    (hrest : rest.head?.any isKeyCharacter = false) :
    (named .key true (oneOrMore (oneOf isKeyCharacter))).find? .top ⟨key.1 ++ rest, offset⟩ =
      some ⟨⟨rest, offset + key.1.length⟩, [.mk Term.key offset key.1 []]⟩ := by
  have htake : takeRun (·.head?.any isKeyCharacter) (key.1 ++ rest) = key.1 := by
    rw [takeRun_head?, List.takeWhile_append_of_pos key.2.2]
    cases rest with
    | nil => simp
    | cons c rest =>
        have hc : isKeyCharacter c = false := hrest
        simp [hc]
  apply find?_named
  rw [takesOne_key.find?_oneOrMore, htake, if_neg key.2.1, List.drop_left]

theorem find?_key_eq_some {cursor : Cursor} {found : Found Term}
    (h : (named .key true (oneOrMore (oneOf isKeyCharacter))).find? .top cursor = some found) :
    ∃ key : Key, cursor.rest = key.1 ++ found.cursor.rest := by
  obtain ⟨text, offset⟩ := cursor
  obtain ⟨nodes, hbody⟩ := find?_named_eq_some h
  rw [takesOne_key.find?_oneOrMore] at hbody
  split at hbody
  · contradiction
  · next hkey =>
      obtain ⟨⟨rest, later⟩, _⟩ := found
      cases hbody
      refine ⟨⟨takeRun (·.head?.any isKeyCharacter) text, hkey, ?_⟩,
        (takeRun_append_drop _ text).symm⟩
      intro c hc
      rw [takeRun_head?] at hc
      exact List.mem_takeWhile_imp hc

namespace HeaderText

variable (header : HeaderText)

theorem exists_text : ∃ c rest, header.text = c :: rest ∧ isKeyCharacter c = true := by
  obtain ⟨⟨key, hne, hkey⟩, _, _, _⟩ := header
  cases key with
  | nil => contradiction
  | cons c key => exact ⟨c, _, rfl, hkey c List.mem_cons_self⟩

theorem text_ne_nil : header.text ≠ [] := by
  obtain ⟨c, rest, htext, -⟩ := header.exists_text
  rw [htext]
  exact List.cons_ne_nil c rest

theorem text_ne_sign (text : List Char) : header.text ≠ '#' :: text := by
  obtain ⟨c, rest, htext, hc⟩ := header.exists_text
  rw [htext]
  rintro heq
  cases heq
  contradiction

theorem startsClear_text (rest : List Char) : startsClear (header.text ++ rest) = true := by
  obtain ⟨c, left, htext, hc⟩ := header.exists_text
  rw [htext]
  cases hgap : Text.isGap c with
  | false => simp [startsClear, hgap]
  | true =>
      rcases Text.isGap_eq_true.1 hgap with rfl | rfl <;> contradiction

theorem find?_header {tail : List Char} (hnot : ¬ BeginsRules header.text)
    (hline : IsLine header.text) (htail : endsLine tail = true) (offset : Nat) :
    Source.header.find? .top ⟨header.text ++ tail, offset⟩ =
      some ⟨⟨tail, offset + header.text.length⟩, [header.node offset]⟩ := by
  apply find?_named
  have hafter : (header.beforeColon.1 ++ ':' ::
      (header.afterColon.1 ++ (header.value.1 ++ tail))).head?.any isKeyCharacter = false := by
    rcases gap_append_cases header.beforeColon (':' :: (header.afterColon.1 ++
      (header.value.1 ++ tail))) with heq | ⟨c, more, heq, rfl | rfl⟩ <;> rw [heq] <;> rfl
  have hvalueLine : IsLine header.value.1 := by
    simp only [text, isLine_append, isLine_cons] at hline
    exact hline.2.2.2.2
  have hahead : (notAhead rulesKeyword).find? .top ⟨header.text ++ tail, offset⟩ =
      some ⟨⟨header.text ++ tail, offset⟩, []⟩ :=
    find?_notAhead_rulesKeyword.2 ⟨mt (beginsRules_append hline htail).1 hnot, rfl⟩
  have hkey := find?_key header.key offset hafter
  have hcolon := find?_literal header.beforeColon (offset + header.key.1.length) ":"
    (show startsClear (':' :: (header.afterColon.1 ++ (header.value.1 ++ tail))) = true from rfl) .top
  have hvalue := find?_value hvalueLine htail
    (offset + header.key.1.length + header.beforeColon.1.length + 1 + header.afterColon.1.length)
  rw [← skipGap_append _ header.afterColon.2 (startsClear_append header.value.2 htail)] at hvalue
  have hskip := skipGap_of_startsClear (header.startsClear_text tail) offset
  have hsplit : header.text ++ tail = header.key.1 ++ (header.beforeColon.1 ++ ':' ::
      (header.afterColon.1 ++ (header.value.1 ++ tail))) := by
    simp [text]
  rw [← hsplit, ← hskip] at hkey
  have hall := find?_seq (find?_seq (find?_seq hahead hkey) hcolon) hvalue
  rw [header.length_text]
  simp only [valueStart, Nat.add_assoc] at hall ⊢
  exact hall

end HeaderText

theorem isLine_key (key : Key) : IsLine key.1 :=
  fun c hc => isLineEnd_of_isKeyCharacter (key.2.2 c hc)

theorem find?_header_eq_some {content tail : List Char} {offset : Nat} {found : Found Term}
    (hcontent : IsLine content) (htail : endsLine tail = true)
    (hclear : startsClear (content ++ tail) = true)
    (h : Source.header.find? .top ⟨content ++ tail, offset⟩ = some found) :
    ∃ header : HeaderText, content = header.text ∧ ¬ BeginsRules header.text := by
  obtain ⟨nodes, hbody⟩ := find?_named_eq_some h
  obtain ⟨_, last, hthree, -, -⟩ := find?_seq_eq_some.1 hbody
  obtain ⟨before, colon, htwo, hcolon, rfl⟩ := find?_seq_eq_some.1 hthree
  obtain ⟨_, _, hahead, hkey, rfl⟩ := find?_seq_eq_some.1 htwo
  obtain ⟨hnot, rfl⟩ := find?_notAhead_rulesKeyword.1 hahead
  obtain ⟨key, hkeyText⟩ := find?_key_eq_some hkey
  rw [← Context.top, Context.skipGap_top, skipGap_of_startsClear hclear] at hkeyText
  obtain ⟨beforeColon, hbeforeColon⟩ := find?_literal_eq_some hcolon
  obtain ⟨afterColon, hafterColon, hvalue, -, hvalueClear⟩ := exists_gap colon.cursor
  have hfirst : IsLine (key.1 ++ (beforeColon.1 ++ ':' :: afterColon)) := by
    simp only [isLine_append, isLine_cons]
    exact ⟨isLine_key key, isLine_gap beforeColon, rfl, isLine_gap ⟨afterColon, hafterColon⟩⟩
  have hsplit : content ++ tail =
      (key.1 ++ (beforeColon.1 ++ ':' :: afterColon)) ++ colon.cursor.skipGap.rest := by
    dsimp only at hkeyText hbeforeColon
    rw [hkeyText, hbeforeColon, hvalue]
    simp
  obtain ⟨value, htext, hrest⟩ := exists_of_line_eq_append hcontent htail hfirst hsplit
  rw [hrest] at hvalueClear
  refine ⟨⟨key, beforeColon, ⟨afterColon, hafterColon⟩, value, startsClear_of_append hvalueClear⟩,
    ?_, fun hbegins => hnot ((beginsRules_append hcontent htail).2 ?_)⟩
  · rw [htext]
    simp [HeaderText.text]
  · rw [htext]
    simpa [HeaderText.text] using hbegins

/-- What a line before the rules may be after the gap it begins with, and the headers in it. -/
inductive HeadContent : List Char → List HeaderText → Prop where
  | blank : HeadContent [] []
  | comment (text : List Char) : HeadContent ('#' :: text) []
  | header (header : HeaderText) (hnot : ¬ BeginsRules header.text) :
      HeadContent header.text [header]

theorem not_beginsRules_sign (text : List Char) : ¬ BeginsRules ('#' :: text) := by
  rintro ⟨gap, rest, h⟩
  cases h

theorem HeadContent.not_beginsRules {content : List Char} {headers : List HeaderText}
    (h : HeadContent content headers) : ¬ BeginsRules content := by
  cases h with
  | blank => exact @not_beginsRules_of_endsLine [] rfl
  | comment text => exact not_beginsRules_sign text
  | header _ hnot => exact hnot

/-- On lines whose content is as described the pattern takes the whole line, but for the gap at its
end, and reports its parts. On other lines it matches and takes nothing. -/
structure TakesLine {Part : Type} (pattern : Pattern Term)
    (Content : List Char → List Part → Prop) (node : Part → Nat → Node Term) : Prop where
  blank : Content [] []
  clear : ∀ {content parts}, Content content parts → startsClear content = true
  found : ∀ {content parts tail} (offset : Nat), Content content parts → IsLine content →
    endsLine tail = true →
    ∃ last, pattern.find? .top ⟨content ++ tail, offset⟩ =
        some ⟨last, parts.map (node · offset)⟩ ∧
      last.skipGap = ⟨tail, offset + content.length⟩
  missed : ∀ {content tail} (offset : Nat), (¬ ∃ parts, Content content parts) → IsLine content →
    endsLine tail = true → startsClear (content ++ tail) = true →
    pattern.find? .top ⟨content ++ tail, offset⟩ = some ⟨⟨content ++ tail, offset⟩, []⟩

/-! Two alternatives of which the line may be either or neither. -/

section Alternatives

variable {first second : Pattern Term} {cursor : Cursor} {found : Found Term}

theorem find?_optional_first (h : first.find? .top cursor = some found) :
    (optional (either first second)).find? .top cursor = some found := by
  rw [find?, find?, h]
  rfl

theorem find?_optional_second (hnone : first.find? .top cursor = none)
    (h : second.find? .top cursor = some found) :
    (optional (either first second)).find? .top cursor = some found := by
  rw [find?, find?, hnone, h]
  rfl

theorem find?_optional_neither (hfirst : first.find? .top cursor = none)
    (hsecond : second.find? .top cursor = none) :
    (optional (either first second)).find? .top cursor = some ⟨cursor, []⟩ := by
  rw [find?, find?, hfirst, hsecond]
  rfl

end Alternatives

theorem find?_comment_eq_none {content tail : List Char} (hcontent : IsLine content)
    (htail : endsLine tail = true) (h : ∀ text, content ≠ '#' :: text) (offset : Nat) :
    comment.find? .top ⟨content ++ tail, offset⟩ = none := by
  cases hfound : comment.find? .top ⟨content ++ tail, offset⟩ with
  | none => rfl
  | some found =>
      obtain ⟨rest, hrest⟩ := find?_comment_eq_some hfound
      obtain ⟨text, htext, -⟩ :=
        exists_of_line_eq_append hcontent htail (show IsLine ['#'] by decide) hrest
      exact absurd htext (h text)

theorem find?_header_eq_none {content tail : List Char} (hcontent : IsLine content)
    (htail : endsLine tail = true) (hclear : startsClear (content ++ tail) = true)
    (h : ∀ header : HeaderText, content = header.text → BeginsRules header.text) (offset : Nat) :
    Source.header.find? .top ⟨content ++ tail, offset⟩ = none := by
  cases hfound : Source.header.find? .top ⟨content ++ tail, offset⟩ with
  | none => rfl
  | some found =>
      obtain ⟨header, htext, hnot⟩ := find?_header_eq_some hcontent htail hclear hfound
      exact absurd (h header htext) hnot

theorem takesLine_head : TakesLine (optional (either Source.header comment)) HeadContent
    HeaderText.node where
  blank := .blank
  clear h := by
    cases h with
    | blank => rfl
    | comment => rfl
    | header header => exact startsClear_of_append (header.startsClear_text [])
  found {content parts tail} offset h hcontent htail := by
    cases h with
    | blank =>
        have hheader := find?_header_eq_none hcontent htail (startsClear_of_endsLine htail)
          (fun header htext => absurd htext.symm header.text_ne_nil) offset
        have hcomment := find?_comment_eq_none hcontent htail nofun offset
        exact ⟨_, find?_optional_neither hheader hcomment,
          skipGap_of_startsClear (startsClear_of_endsLine htail) offset⟩
    | comment text =>
        obtain ⟨last, hlast, hskip⟩ := find?_comment (isLine_cons.1 hcontent).2 htail offset
        have hheader := find?_header_eq_none hcontent htail rfl
          (fun header htext => absurd htext.symm (header.text_ne_sign text)) offset
        refine ⟨last, find?_optional_second hheader hlast, hskip.trans ?_⟩
        rw [List.length_cons, Nat.add_assoc, Nat.add_comm 1]
    | header header hnot =>
        exact ⟨_, find?_optional_first (header.find?_header hnot hcontent htail offset),
          skipGap_of_startsClear (startsClear_of_endsLine htail) _⟩
  missed {content tail} offset hnone hcontent htail hclear := by
    apply find?_optional_neither
    · apply find?_header_eq_none hcontent htail hclear
      rintro header rfl
      by_contra hnot
      exact hnone ⟨_, .header header hnot⟩
    · apply find?_comment_eq_none hcontent htail
      rintro text rfl
      exact hnone ⟨_, .comment text⟩

end TapeMachine.Source
