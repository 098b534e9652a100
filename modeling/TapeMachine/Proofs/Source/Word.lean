import TapeMachine.Proofs.Grammar.Search
import TapeMachine.Source.Patterns
import Mathlib.Data.List.Infix
import Mathlib.Data.List.TakeWhile
import Mathlib.Tactic.ByContra

/-!
Words and gaps. A word is what a token may be: a non-empty run of characters in which no separator
begins. An arrow of two characters is a separator and each of them alone is not, so a word may end
in the first or begin with the second. Gaps are the spaces and tabs between tokens.
-/

namespace TapeMachine.Source

open Grammar Pattern

/-- The separators of one character. -/
def separators : List Char :=
  [' ', '\t', '\n', '\r', ',', '→']

structure IsWord (word : List Char) : Prop where
  ne_nil : word ≠ []
  not_mem : ∀ c ∈ word, c ∉ separators
  not_arrow : ¬ ['-', '>'] <:+: word

abbrev Word := { word : List Char // IsWord word }

/-- Whether no word goes on here: the text ends or a separator begins. -/
def endsWord : List Char → Bool
  | [] => true
  | c :: rest => separators.contains c || (c == '-' && rest.head? == some '>')

/-- The longest beginning of a text in which no separator begins. -/
def takeWord (text : List Char) : List Char :=
  takeRun (!endsWord ·) text

theorem takeWord_cons (c : Char) (rest : List Char) :
    takeWord (c :: rest) = if endsWord (c :: rest) then [] else c :: takeWord rest := by
  rw [takeWord, takeRun_cons]
  cases endsWord (c :: rest) <;> rfl

theorem endsWord_drop_takeWord (text : List Char) :
    endsWord (text.drop (takeWord text).length) = true := by
  rcases drop_takeRun (!endsWord ·) text with hnil | hfails
  · rw [takeWord, hnil]
    rfl
  · rwa [Bool.not_eq_false'] at hfails

theorem not_mem_of_mem_takeWord {text : List Char} {c : Char} (h : c ∈ takeWord text) :
    c ∉ separators := by
  induction text with
  | nil => cases h
  | cons first rest ih =>
      rw [takeWord_cons] at h
      split at h
      · cases h
      · next hends =>
          rcases List.mem_cons.1 h with rfl | hrest
          · intro hmem
            simp [endsWord, hmem] at hends
          · exact ih hrest

theorem not_arrow_takeWord (text : List Char) : ¬ ['-', '>'] <:+: takeWord text := by
  induction text with
  | nil => simp [takeWord, takeRun]
  | cons c rest ih =>
      rw [takeWord_cons]
      split
      · simp
      · next hends =>
          intro harrow
          rcases List.infix_cons_iff.1 harrow with hhead | htail
          · obtain ⟨rfl, hnext⟩ := List.cons_prefix_cons.1 hhead
            cases rest with
            | nil => simp [takeWord, takeRun] at hnext
            | cons d rest =>
                rw [takeWord_cons] at hnext
                split at hnext
                · simp at hnext
                · obtain ⟨rfl, -⟩ := List.cons_prefix_cons.1 hnext
                  simp [endsWord] at hends
          · exact ih htail

theorem isWord_takeWord {text : List Char} (h : takeWord text ≠ []) : IsWord (takeWord text) :=
  ⟨h, fun _ hmem => not_mem_of_mem_takeWord hmem, not_arrow_takeWord text⟩

/-- A word is taken whole from a text that begins with it and in which it cannot go on. -/
theorem takeWord_append {word rest : List Char} (hmem : ∀ c ∈ word, c ∉ separators)
    (harrow : ¬ ['-', '>'] <:+: word) (hrest : endsWord rest = true) :
    takeWord (word ++ rest) = word := by
  induction word with
  | nil =>
      cases rest with
      | nil => rfl
      | cons c rest => rw [List.nil_append, takeWord_cons, if_pos hrest]
  | cons c word ih =>
      have hstays : endsWord (c :: (word ++ rest)) = false := by
        rw [endsWord, Bool.or_eq_false_iff]
        refine ⟨by simpa using hmem c List.mem_cons_self, ?_⟩
        by_contra harrows
        simp only [Bool.not_eq_false, Bool.and_eq_true, beq_iff_eq] at harrows
        obtain ⟨rfl, hhead⟩ := harrows
        cases word with
        | nil =>
            cases rest with
            | nil => simp at hhead
            | cons d rest =>
                obtain rfl : d = '>' := by simpa using hhead
                revert hrest
                simp [endsWord, separators]
        | cons d word =>
            obtain rfl : d = '>' := by simpa using hhead
            exact harrow ⟨[], word, rfl⟩
      have htail : takeWord (word ++ rest) = word :=
        ih (fun d hd => hmem d (List.mem_cons_of_mem c hd))
          fun h => harrow (h.trans (List.suffix_cons c word).isInfix)
      rw [List.cons_append, takeWord_cons, hstays, htail]
      rfl

/-! What the patterns for tokens, literals and gaps find. -/

theorem find?_exactly_eq_some {text : List Char} {context : Context} {cursor : Cursor}
    {found : Found Term} : (exactly text).find? context cursor = some found ↔
      cursor.rest = text ++ found.cursor.rest ∧
        found = ⟨⟨found.cursor.rest, cursor.offset + text.length⟩, []⟩ := by
  rw [find?, Option.map_eq_some_iff]
  constructor
  · rintro ⟨rest, hrest, rfl⟩
    exact ⟨after?_eq_some_iff.1 hrest, rfl⟩
  · rintro ⟨hrest, hfound⟩
    exact ⟨found.cursor.rest, after?_eq_some_iff.2 hrest, hfound.symm⟩

@[simp] theorem find?_exactly_append (text rest : List Char) (context : Context) (offset : Nat) :
    (exactly text : Pattern Term).find? context ⟨text ++ rest, offset⟩ =
      some ⟨⟨rest, offset + text.length⟩, []⟩ :=
  find?_exactly_eq_some.2 ⟨rfl, rfl⟩

theorem isSome_find?_separator (context : Context) (c : Char) (rest : List Char) (offset : Nat) :
    (separator.find? context ⟨c :: rest, offset⟩).isSome = endsWord (c :: rest) := by
  have hcomma : ",".toList = [','] := rfl
  have harrow : "→".toList = ['→'] := rfl
  have hdashed : "->".toList = ['-', '>'] := rfl
  have hfeed : "\n".toList = ['\n'] := rfl
  have hreturn : "\r".toList = ['\r'] := rfl
  have hboth : "\r\n".toList = ['\r', '\n'] := rfl
  simp only [separator, arrow, lineEnd, literal, find?, hcomma, harrow, hdashed, hfeed, hreturn,
    hboth, after?, endsWord, separators, Text.isGap]
  cases rest <;> grind [after?]

theorem takesOne_token :
    TakesOne ((seq (notAhead separator) any).find? ⟨.consume, true⟩) (!endsWord ·) where
  nil _ := rfl
  cons c rest offset := by
    rw [find?, find?_notAhead, isSome_find?_separator]
    cases endsWord (c :: rest) <;> rfl

/-- A token matches a word that stands whole before a place where no word goes on. -/
theorem find?_token_append (term : Term) {word rest : List Char} (offset : Nat)
    (hword : IsWord word) (hrest : endsWord rest = true) :
    (token term).find? .top ⟨word ++ rest, offset⟩ =
      some ⟨⟨rest, offset + word.length⟩, [.mk term offset word []]⟩ := by
  have htake : takeRun (!endsWord ·) (word ++ rest) = word :=
    takeWord_append hword.not_mem hword.not_arrow hrest
  apply find?_named
  rw [takesOne_token.find?_oneOrMore, htake, if_neg hword.ne_nil, List.drop_left]

theorem find?_token_eq_some {term : Term} {cursor : Cursor} {found : Found Term}
    (h : (token term).find? .top cursor = some found) :
    ∃ word, IsWord word ∧ cursor.rest = word ++ found.cursor.rest ∧
      endsWord found.cursor.rest = true := by
  obtain ⟨text, offset⟩ := cursor
  obtain ⟨nodes, hbody⟩ := find?_named_eq_some h
  rw [takesOne_token.find?_oneOrMore] at hbody
  split at hbody
  · contradiction
  · next hword =>
      obtain ⟨⟨rest, later⟩, _⟩ := found
      cases hbody
      exact ⟨takeWord text, isWord_takeWord hword, (takeRun_append_drop _ text).symm,
        endsWord_drop_takeWord text⟩

/-! Gaps between tokens. -/

def IsGap (gap : List Char) : Prop :=
  ∀ c ∈ gap, Text.isGap c = true

abbrev Gap := { gap : List Char // IsGap gap }

/-- A text after a gap begins as it does alone, or with a space or a tab. -/
theorem gap_append_cases (gap : Gap) (text : List Char) :
    gap.1 ++ text = text ∨ ∃ c rest, gap.1 ++ text = c :: rest ∧ (c = ' ' ∨ c = '\t') := by
  obtain ⟨gap, hgap⟩ := gap
  cases gap with
  | nil => exact .inl rfl
  | cons c gap => exact .inr ⟨c, _, rfl, Text.isGap_eq_true.1 (hgap c List.mem_cons_self)⟩

/-- Whether a text begins with no space or tab. -/
def startsClear (text : List Char) : Bool :=
  !text.head?.any Text.isGap

theorem skipGap_append {gap rest : List Char} (offset : Nat) (hgap : IsGap gap)
    (hrest : startsClear rest = true) :
    Cursor.skipGap ⟨gap ++ rest, offset⟩ = ⟨rest, offset + gap.length⟩ := by
  have htake : (gap ++ rest).takeWhile Text.isGap = gap := by
    rw [List.takeWhile_append_of_pos hgap]
    cases rest with
    | nil => simp
    | cons c rest =>
        have hc : Text.isGap c = false := by simpa [startsClear] using hrest
        simp [hc]
  have hdrop : (gap ++ rest).dropWhile Text.isGap = rest := by
    rw [List.dropWhile_append_of_pos hgap]
    cases rest with
    | nil => rfl
    | cons c rest =>
        have hc : Text.isGap c = false := by simpa [startsClear] using hrest
        simp [hc]
  simp only [Cursor.skipGap, Cursor.advance, htake, hdrop]

theorem skipGap_of_startsClear {text : List Char} (h : startsClear text = true) (offset : Nat) :
    Cursor.skipGap ⟨text, offset⟩ = ⟨text, offset⟩ :=
  @skipGap_append [] text offset (fun _ hmem => nomatch hmem) h

theorem exists_gap (cursor : Cursor) :
    ∃ gap, IsGap gap ∧ cursor.rest = gap ++ cursor.skipGap.rest ∧
      cursor.skipGap.offset = cursor.offset + gap.length ∧
      startsClear cursor.skipGap.rest = true := by
  refine ⟨cursor.rest.takeWhile Text.isGap, fun c hc => List.mem_takeWhile_imp hc,
    List.takeWhile_append_dropWhile.symm, rfl, ?_⟩
  have hhead := List.head?_dropWhile_not Text.isGap cursor.rest
  change startsClear (cursor.rest.dropWhile Text.isGap) = true
  rw [startsClear]
  cases hrest : (cursor.rest.dropWhile Text.isGap).head? with
  | none => rfl
  | some c =>
      rw [hrest] at hhead
      simpa using hhead

end TapeMachine.Source
