import TapeMachine.Proofs.Definition.NormalForm
import TapeMachine.Proofs.Machine.Step
import TapeMachine.Proofs.Source.TableBuilding

/-!
What becomes of the rules that the grammar finds in a document. A definition keeps them in their
order, but for those that begin as a comment and cannot be read: these are left out without a fault,
while any other rule that cannot be read makes loading fail. A rule that is kept answers for its
situation unless a later one does.
-/

namespace TapeMachine

open Source Grammar

/-- The rules of a document, trimmed. -/
def Source.ruleTexts (rules : List (Placed RuleText)) : List String :=
  rules.map fun rule => String.ofList (Text.trim rule.part.text)

theorem isComment_of_readRule {line : List Char} {rule : Rule} (h : readRule line = .ok rule) :
    isComment line = false := by
  rw [isComment, h]
  exact Bool.and_false _

/-- What a form leaves out of a document's rules are the comments among them. -/
theorem ruleLines_ruleTexts (rules : List (Placed RuleText)) :
    ruleLines (Text.joinLines (ruleTexts rules)) =
      (ruleTexts rules).filter (!isComment ·.toList) :=
  (ruleLines_documentRules rules).trans (filter_documentRules rules).symm

theorem layout_of_ofCharacters {text : List Char} {document : Document}
    (h : Document.ofCharacters text = .ok document) :
    ∃ headers rules, Layout (linesFrom 0 text) headers rules ∧
      document = ⟨headerNodes headers, ruleTexts rules⟩ := by
  by_cases hlayout : ∃ headers rules, Layout (linesFrom 0 text) headers rules
  · obtain ⟨headers, rules, hlayout⟩ := hlayout
    rw [Document.ofCharacters_of_layout hlayout] at h
    exact ⟨headers, rules, hlayout, (Except.ok.inj h).symm⟩
  · obtain ⟨error, herror⟩ := Document.ofCharacters_of_no_layout hlayout
    rw [herror] at h
    cases h

namespace Definition

/-- The rules that the grammar finds in a document are those of the definition, trimmed and in
order, but for those that are comments to a form: all are kept exactly when none of them is one.
Loading fails when a rule that is kept cannot be read. Otherwise each rule that can be read is the
table's answer for its situation, unless a later one is for the same situation. -/
theorem rules_of_ofText {text : String} {definition : Definition}
    (h : ofText text = .ok definition) :
    ∃ headers rules, Layout (linesFrom 0 text.toList) headers rules ∧
      Document.ofCharacters text.toList = .ok ⟨headerNodes headers, ruleTexts rules⟩ ∧
      definition.rules = (ruleTexts rules).filter (!isComment ·.toList) ∧
      (definition.rules = ruleTexts rules ↔
        ∀ line ∈ ruleTexts rules, isComment line.toList = false) ∧
      ∀ machine : Machine,
        ((∃ line ∈ ruleTexts rules, isComment line.toList = false ∧
            ∃ error, readRule line.toList = .error error) →
          ∃ error, machine.load definition = .error error) ∧
        ((∀ line ∈ ruleTexts rules, isComment line.toList = false →
            ∃ rule, readRule line.toList = .ok rule) →
          ∃ loaded, machine.load definition = .ok loaded ∧
            ∀ earlier line later rule, ruleTexts rules = earlier ++ line :: later →
              readRule line.toList = .ok rule →
                (∃ other ∈ later, ∃ redefined, readRule other.toList = .ok redefined ∧
                    redefined.situation = rule.situation) ∨
                  loaded.program.table.find? rule.situation = some rule.action) := by
  obtain ⟨document, given, formed, hdocument, hformed, hnamed⟩ := exists_of_ofText h
  obtain ⟨headers, rules, hlayout, rfl⟩ := layout_of_ofCharacters hdocument
  have hrules : definition.rules = (ruleTexts rules).filter (!isComment ·.toList) := by
    rw [← hnamed, rules_named, rules_of_ofFields hformed]
    exact ruleLines_ruleTexts rules
  have hkept {line : String} (hline : line ∈ ruleTexts rules)
      (hcomment : isComment line.toList = false) : line ∈ definition.rules := by
    rw [hrules]
    exact List.mem_filter.2 ⟨hline, by rw [hcomment]; rfl⟩
  refine ⟨headers, rules, hlayout, hdocument, hrules, ?_, fun machine => ⟨?_, ?_⟩⟩
  · rw [hrules, List.filter_eq_self]
    exact forall₂_congr fun line _ => Iff.of_eq (Bool.not_eq_true' _)
  · rintro ⟨line, hline, hcomment, error, hread⟩
    exact machine.load_of_unreadable (hkept hline hcomment) hread
  · intro hreadable
    have hall : ∀ line ∈ definition.rules, ∃ rule, readRule line.toList = .ok rule := by
      intro line hline
      rw [hrules] at hline
      obtain ⟨hmem, hnot⟩ := List.mem_filter.1 hline
      exact hreadable line hmem (by rwa [Bool.not_eq_true'] at hnot)
    obtain ⟨table, htable, hloaded⟩ := machine.load_of_readable hall
    refine ⟨_, hloaded, ?_⟩
    intro earlier line later rule hsplit hread
    have hcomment := isComment_of_readRule hread
    rw [hrules, hsplit, List.filter_append, List.filter_cons_of_pos (by rw [hcomment]; rfl)] at htable
    rcases find?_of_readTable htable hread with ⟨other, hother, hredefined⟩ | hanswer
    · exact .inl ⟨other, (List.mem_filter.1 hother).1, hredefined⟩
    · exact .inr hanswer

/-- Rules of a state with the comment sign. One of them cannot be read, and another one comes
twice. -/
def signText : String :=
  "initial: #\nfinal: f\nrules: #,a -> #,b,R\n# remark\n#,ab -> f,b,R\n#,a -> f,b,R\n"

def signDefinition : Definition :=
  ⟨none, "", "#", ["f"], none, ["#,a -> #,b,R", "#,a -> f,b,R"]⟩

theorem ofText_signText : ofText signText = .ok signDefinition := by decide +kernel

theorem ofCharacters_signText : (Document.ofCharacters signText.toList).map (·.rules) =
    .ok ["#,a -> #,b,R", "#,ab -> f,b,R", "#,a -> f,b,R"] := by decide +kernel

/-- A rule of the document is missing in the definition, and loading does not fail for it. Without
the sign in front it does. -/
theorem ofText_leaves_out_rule :
    (ofText signText = .ok signDefinition ∧
      (Document.ofCharacters signText.toList).map (·.rules) =
        .ok ["#,a -> #,b,R", "#,ab -> f,b,R", "#,a -> f,b,R"] ∧
      "#,ab -> f,b,R" ∉ signDefinition.rules ∧
      ∃ loaded, Machine.new.load signDefinition = .ok loaded) ∧
    ∃ definition error, ofText "initial: q\nrules:\nq,ab -> f,b,R" = .ok definition ∧
      Machine.new.load definition = .error error := by
  have hloads : ∃ loaded, Machine.new.load signDefinition = .ok loaded := ⟨_, by rfl⟩
  exact ⟨⟨ofText_signText, ofCharacters_signText, by decide, hloads⟩, _, _, by rfl, by rfl⟩

theorem rules_of_ofText_signText :
    ofText signText = .ok signDefinition ∧
      ∃ headers rules, Layout (linesFrom 0 signText.toList) headers rules ∧
        ruleTexts rules = ["#,a -> #,b,R", "#,ab -> f,b,R", "#,a -> f,b,R"] ∧
        signDefinition.rules = (ruleTexts rules).filter (!isComment ·.toList) ∧
        ∃ loaded, Machine.new.load signDefinition = .ok loaded ∧
          loaded.program.table.find? ⟨"#", 'a'⟩ = some ⟨"f", 'b', .right⟩ := by
  have hfound := ofCharacters_signText
  obtain ⟨headers, rules, hlayout, hdocument, hrules, -, hload⟩ := rules_of_ofText ofText_signText
  rw [hdocument] at hfound
  have hlines : ruleTexts rules = ["#,a -> #,b,R", "#,ab -> f,b,R", "#,a -> f,b,R"] :=
    Except.ok.inj hfound
  have hreadable : ∀ line ∈ ruleTexts rules, isComment line.toList = false →
      ∃ rule, readRule line.toList = .ok rule := by
    have hsign : isComment "#,ab -> f,b,R".toList = true := by rfl
    intro line hline hcomment
    simp only [hlines, List.mem_cons, List.not_mem_nil, or_false] at hline
    rcases hline with rfl | rfl | rfl
    · exact ⟨_, by rfl⟩
    · rw [hsign] at hcomment
      cases hcomment
    · exact ⟨_, by rfl⟩
  obtain ⟨loaded, hloaded, hanswers⟩ := (hload Machine.new).2 hreadable
  have hlast : readRule "#,a -> f,b,R".toList = .ok ⟨⟨"#", 'a'⟩, ⟨"f", 'b', .right⟩⟩ := by rfl
  refine ⟨ofText_signText, headers, rules, hlayout, hlines, hrules, loaded, hloaded, ?_⟩
  exact (hanswers ["#,a -> #,b,R", "#,ab -> f,b,R"] _ [] _ hlines hlast).resolve_left nofun

end Definition

end TapeMachine
