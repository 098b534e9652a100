import TapeMachine.Proofs.Source.TableReading
import TapeMachine.Proofs.Table.Contents

/-!
Building tables from lines. The lines that are read give their rules to the table in order, and a
rule for a situation that an earlier one was for is reported with the nearest of these. The first
line that cannot be read ends the reading, and its error names it by its number.
-/

namespace TapeMachine

namespace Source

/-- The lines are read as the rules, each line as one. -/
def ReadAs (lines : List String) (rules : List Rule) : Prop :=
  lines.map (fun line => readRule line.toList) = rules.map .ok

theorem readAs_cons_iff {line : String} {lines : List String} {rule : Rule} {rules : List Rule} :
    ReadAs (line :: lines) (rule :: rules) ↔ readRule line.toList = .ok rule ∧ ReadAs lines rules := by
  simp only [ReadAs, List.map_cons, List.cons.injEq]

theorem ReadAs.of_cons {line : String} {lines : List String} {rule : Rule} {rules : List Rule}
    (h : ReadAs (line :: lines) rules) (hread : readRule line.toList = .ok rule) :
    ∃ rest, rules = rule :: rest ∧ ReadAs lines rest := by
  cases rules with
  | nil => cases h
  | cons first rest =>
      obtain ⟨hfirst, hrest⟩ := readAs_cons_iff.1 h
      rw [hread] at hfirst
      cases hfirst
      exact ⟨rest, rfl, hrest⟩

theorem ReadAs.of_append {lines later : List String} {rules : List Rule}
    (h : ReadAs (lines ++ later) rules) :
    ∃ first rest, rules = first ++ rest ∧ ReadAs lines first ∧ ReadAs later rest := by
  rw [ReadAs, List.map_append] at h
  obtain ⟨first, rest, rfl, hfirst, hrest⟩ := List.map_eq_append_iff.1 h.symm
  exact ⟨first, rest, rfl, hfirst.symm, hrest.symm⟩

theorem ReadAs.mem_iff {lines : List String} {rules : List Rule} (h : ReadAs lines rules)
    {rule : Rule} : rule ∈ rules ↔ ∃ line ∈ lines, readRule line.toList = .ok rule := by
  have hmem : rule ∈ rules ↔ .ok rule ∈ lines.map fun line => readRule line.toList := by
    rw [h, List.mem_map]
    simp
  rw [hmem, List.mem_map]

theorem ReadAs.length_eq {lines : List String} {rules : List Rule} (h : ReadAs lines rules) :
    lines.length = rules.length := by
  have hlength := congrArg List.length h
  rwa [List.length_map, List.length_map] at hlength

theorem ReadAs.readable {lines : List String} {rules : List Rule} (h : ReadAs lines rules) :
    ∀ line ∈ lines, ∃ rule, readRule line.toList = .ok rule := by
  intro line hline
  have hmem : readRule line.toList ∈ rules.map .ok := by
    rw [← h]
    exact List.mem_map_of_mem hline
  obtain ⟨rule, -, hrule⟩ := List.mem_map.1 hmem
  exact ⟨rule, hrule.symm⟩

theorem exists_readAs {lines : List String}
    (h : ∀ line ∈ lines, ∃ rule, readRule line.toList = .ok rule) : ∃ rules, ReadAs lines rules := by
  induction lines with
  | nil => exact ⟨[], rfl⟩
  | cons line lines ih =>
      obtain ⟨⟨rule, hread⟩, hlines⟩ := List.forall_mem_cons.1 h
      obtain ⟨rules, hrules⟩ := ih hlines
      exact ⟨rule :: rules, readAs_cons_iff.2 ⟨hread, hrules⟩⟩

/-- Lines in another order are read as their rules in that order. -/
theorem ReadAs.exists_of_perm {lines reordered : List String} {rules : List Rule}
    (h : ReadAs lines rules) (hperm : reordered.Perm lines) :
    ∃ others, ReadAs reordered others ∧ others.Perm rules := by
  obtain ⟨others, hothers⟩ := exists_readAs fun line hline => h.readable line (hperm.subset hline)
  have hread := hperm.map fun line => readRule line.toList
  rw [ReadAs] at h hothers
  rw [h, hothers] at hread
  have hsame := hread.filterMap Except.toOption
  have htold (rules : List Rule) :
      (rules.map (Except.ok : Rule → Except SyntaxError Rule)).filterMap Except.toOption = rules := by
    rw [List.filterMap_map]
    exact List.filterMap_some
  rw [htold, htold] at hsame
  exact ⟨others, hothers, hsame⟩

/-- What a rule redefines that comes after the others: the nearest of them for its situation. -/
def redefinition? (earlier : List Rule) (rule : Rule) : Option Redefinition :=
  (earlier.reverse.find? (·.situation = rule.situation)).map fun previous =>
    ⟨earlier.length + 1, rule.situation, previous.action⟩

/-- What each of the rules redefines that come after the others, in order. -/
def redefinitionsIn (earlier rules : List Rule) : List Redefinition :=
  (List.range rules.length).filterMap fun index =>
    rules[index]?.bind (redefinition? (earlier ++ rules.take index))

theorem redefinitionsIn_cons (earlier : List Rule) (rule : Rule) (rules : List Rule) :
    redefinitionsIn earlier (rule :: rules) =
      (redefinition? earlier rule).toList ++ redefinitionsIn (earlier ++ [rule]) rules := by
  have hlater : (List.range rules.length).filterMap ((fun index =>
      (rule :: rules)[index]?.bind (redefinition? (earlier ++ (rule :: rules).take index))) ∘
        Nat.succ) = redefinitionsIn (earlier ++ [rule]) rules := by
    refine List.filterMap_congr fun index _ => ?_
    rw [Function.comp_apply, List.getElem?_cons_succ, List.take_succ_cons, List.append_assoc,
      List.singleton_append]
  rw [redefinitionsIn, List.length_cons, List.range_succ_eq_map, List.filterMap_cons,
    List.filterMap_map, hlater, List.getElem?_cons_zero, Option.bind_some, List.take_zero,
    List.append_nil]
  cases redefinition? earlier rule <;> rfl

/-- The redefinitions were met before those of the reading. -/
def TableReading.withEarlier (reading : TableReading) (earlier : List Redefinition) :
    TableReading :=
  ⟨reading.table, earlier ++ reading.redefinitions⟩

theorem TableReading.withEarlier_append (reading : TableReading)
    (earlier more : List Redefinition) :
    reading.withEarlier (earlier ++ more) = (reading.withEarlier more).withEarlier earlier := by
  rw [withEarlier, List.append_assoc]
  rfl

theorem TableReading.cons_ofRules (earlier : List Rule) (rule : Rule)
    (goOn : Rule → TableReading) :
    TableReading.cons (earlier.length + 1) (.ofRules earlier) (.ok rule) goOn =
      (goOn rule).withEarlier (redefinition? earlier rule).toList := by
  simp only [TableReading.cons, Table.find?_ofRules, redefinition?]
  cases earlier.reverse.find? (·.situation = rule.situation) <;> rfl

/-- After lines that are read as rules, reading goes on with the table of all rules so far. -/
theorem TableReading.ofLines_append {lines : List String} {rules : List Rule}
    (h : ReadAs lines rules) (earlier : List Rule) (later : List String) :
    TableReading.ofLines (earlier.length + 1) (.ofRules earlier) (lines ++ later) =
      (TableReading.ofLines ((earlier ++ rules).length + 1) (.ofRules (earlier ++ rules))
        later).withEarlier (redefinitionsIn earlier rules) := by
  induction lines generalizing earlier rules with
  | nil =>
      obtain rfl : rules = [] := List.map_eq_nil_iff.1 h.symm
      rw [List.append_nil]
      rfl
  | cons line lines ih =>
      cases rules with
      | nil => cases h
      | cons rule rules =>
          obtain ⟨hread, hlines⟩ := readAs_cons_iff.1 h
          have hrest := ih hlines (earlier ++ [rule])
          rw [List.length_append, List.length_singleton, Table.ofRules_concat, List.append_assoc,
            List.singleton_append] at hrest
          rw [List.cons_append, TableReading.ofLines, hread, cons_ofRules, hrest,
            redefinitionsIn_cons, withEarlier_append]

theorem readTable_append {lines : List String} {rules : List Rule} (h : ReadAs lines rules)
    (later : List String) : readTable (lines ++ later) =
      (TableReading.ofLines (rules.length + 1) (.ofRules rules) later).withEarlier
        (redefinitionsIn [] rules) :=
  TableReading.ofLines_append h [] later

theorem readTable_of_readAs {lines : List String} {rules : List Rule} (h : ReadAs lines rules) :
    readTable lines = ⟨.ok (.ofRules rules), redefinitionsIn [] rules⟩ := by
  have hall := readTable_append h []
  rw [List.append_nil] at hall
  rw [hall]
  exact congrArg _ (List.append_nil _)

/-- The first line that cannot be read ends the reading. -/
theorem readTable_of_unreadable_line {lines : List String} {rules : List Rule}
    (h : ReadAs lines rules) {line : String} {error : SyntaxError}
    (hread : readRule line.toList = .error error) (later : List String) :
    readTable (lines ++ line :: later) =
      ⟨.error (error.inRule (lines.length + 1)), redefinitionsIn [] rules⟩ := by
  rw [readTable_append h, TableReading.ofLines, hread, h.length_eq]
  exact congrArg _ (List.append_nil _)

/-! What a table that was read answers. -/

theorem exists_of_readTable {lines : List String} {table : Table}
    (h : (readTable lines).table = .ok table) :
    ∃ rules, ReadAs lines rules ∧ table = .ofRules rules := by
  obtain ⟨rules, hrules⟩ := exists_readAs (readTable_isOk_iff.1 ⟨table, h⟩)
  rw [readTable_of_readAs hrules] at h
  exact ⟨rules, hrules, (Except.ok.inj h).symm⟩

/-- The table answers for the situation of each of its lines. -/
theorem exists_find?_of_readTable {lines : List String} {table : Table}
    (h : (readTable lines).table = .ok table) {line : String} (hline : line ∈ lines) {rule : Rule}
    (hread : readRule line.toList = .ok rule) :
    ∃ action, table.find? rule.situation = some action := by
  obtain ⟨rules, hrules, rfl⟩ := exists_of_readTable h
  have hrule := hrules.mem_iff.2 ⟨line, hline, hread⟩
  rw [Table.find?_ofRules, ← Option.isSome_iff_exists, Option.isSome_map, List.find?_isSome]
  exact ⟨rule, List.mem_reverse.2 hrule, decide_eq_true rfl⟩

/-- A rule among the lines is the answer for its situation, or some later line has one for it. -/
theorem find?_of_readTable {table : Table} {earlier later : List String} {line : String}
    (h : (readTable (earlier ++ line :: later)).table = .ok table) {rule : Rule}
    (hread : readRule line.toList = .ok rule) :
    (∃ other ∈ later, ∃ redefined, readRule other.toList = .ok redefined ∧
        redefined.situation = rule.situation) ∨
      table.find? rule.situation = some rule.action := by
  obtain ⟨rules, hrules, rfl⟩ := exists_of_readTable h
  obtain ⟨before, rest, rfl, -, hrest⟩ := hrules.of_append
  obtain ⟨after, rfl, hafter⟩ := hrest.of_cons hread
  rw [Table.find?_ofRules, List.reverse_append, List.reverse_cons, List.append_assoc,
    List.find?_append]
  cases hlater : after.reverse.find? (·.situation = rule.situation) with
  | some redefined =>
      have hmem := List.mem_reverse.1 (List.mem_of_find?_eq_some hlater)
      obtain ⟨other, hother, hredefined⟩ := hafter.mem_iff.1 hmem
      exact .inl ⟨other, hother, redefined, hredefined, by simpa using List.find?_some hlater⟩
  | none => exact .inr (by simp)

/-! What the number of a rule adds to an error. -/

/-- An error of a line alone names no rule. -/
theorem ruleNumber_of_readRule {line : List Char} {error : SyntaxError}
    (h : readRule line = .error error) : error.ruleNumber = none := by
  by_cases hshape : ∃ text : RuleText, Text.trim line = text.text
  · obtain ⟨text, htext⟩ := hshape
    rw [readRule_of_text htext] at h
    rcases text.denotes_or_firstFault with ⟨rule, hdenotes⟩ | ⟨start, word, cause, hfault⟩
    · rw [(text.toRule_tokens_eq_ok _ rule).2 hdenotes] at h
      cases h
    · rw [hfault.toRule_tokens] at h
      cases h
      rfl
  · obtain ⟨attempts, herror, -⟩ := readRule_of_no_text (not_exists.1 hshape)
    rw [herror] at h
    cases h
    rfl

/-- A report names the rule in front of the place, and is otherwise the same. -/
theorem SyntaxError.report_inRule {error : SyntaxError} (h : error.ruleNumber = none)
    (number : Nat) :
    ∃ margin rest, error.report = margin ++ "--> " ++ rest ∧
      (error.inRule number).report =
        margin ++ "--> " ++ ("rule #" ++ toString number ++ ":") ++ rest := by
  unfold report inRule
  dsimp only
  rw [h, Option.elim_none, Option.elim_some]
  simp only [String.append_assoc, String.empty_append]
  exact ⟨_, _, rfl, rfl⟩

/-- Reading lines gives a table exactly when each of them can be read as a rule. The table then
answers with the last rule for a situation, holds one rule for each situation, and lists the states
of its answers in increasing order. Each rule for a situation that came before is reported with its
number and the nearest earlier action, in order. The order of rules for different situations does
not matter. Otherwise the error is that of the first line that cannot be read, with its number, and
the lines before it have their redefinitions reported. -/
theorem readTable_spec (lines : List String) :
    ((∃ table, (readTable lines).table = .ok table) ↔
      ∀ line ∈ lines, ∃ rule, readRule line.toList = .ok rule) ∧
    (∀ rules, ReadAs lines rules → ∃ table, (readTable lines).table = .ok table ∧
      (∀ situation, table.find? situation =
        (rules.reverse.find? (·.situation = situation)).map (·.action)) ∧
      table.size = (rules.map (·.situation)).toFinset.card ∧
      table.states.toList.Pairwise (· < ·) ∧
      (∀ name, name ∈ table.states.toList ↔ ∃ situation action,
        table.find? situation = some action ∧ (name = situation.state ∨ name = action.next)) ∧
      (readTable lines).redefinitions = redefinitionsIn [] rules ∧
      ∀ reordered, reordered.Perm lines → Rule.Distinct rules →
        (readTable reordered).table = .ok table) ∧
    ∀ earlier line later rules error, lines = earlier ++ line :: later → ReadAs earlier rules →
      readRule line.toList = .error error →
        (readTable lines).table = .error (error.inRule (earlier.length + 1)) ∧
        (readTable lines).redefinitions = redefinitionsIn [] rules ∧
        ∃ margin rest, error.report = margin ++ "--> " ++ rest ∧
          (error.inRule (earlier.length + 1)).report =
            margin ++ "--> " ++ ("rule #" ++ toString (earlier.length + 1) ++ ":") ++ rest := by
  refine ⟨readTable_isOk_iff, fun rules hrules => ?_, fun earlier line later rules error => ?_⟩
  · rw [readTable_of_readAs hrules]
    refine ⟨_, rfl, Table.find?_ofRules rules, Table.size_ofRules rules, NameSet.sorted _,
      fun name => Table.mem_states, rfl, fun reordered hperm hdistinct => ?_⟩
    obtain ⟨others, hothers, hsame⟩ := hrules.exists_of_perm hperm
    rw [readTable_of_readAs hothers, Table.ofRules_eq_of_perm hdistinct hsame]
  · rintro rfl hrules hread
    rw [readTable_of_unreadable_line hrules hread]
    exact ⟨rfl, rfl, SyntaxError.report_inRule (ruleNumber_of_readRule hread) _⟩

/-- A rule that is redefined twice is reported each time with what it was last. -/
example : (readTable ["q,a -> q,b,R", "q,a -> f,c,L", "q,a -> f,d,R"]).redefinitions =
    [⟨2, ⟨"q", 'a'⟩, ⟨"q", 'b', .right⟩⟩, ⟨3, ⟨"q", 'a'⟩, ⟨"f", 'c', .left⟩⟩] := by
  rfl

end Source

end TapeMachine
