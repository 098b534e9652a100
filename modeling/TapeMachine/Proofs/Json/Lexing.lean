import TapeMachine.Json.Reader
import Mathlib.Tactic.SplitIfs

/-!
How a text is divided into tokens. A mark ends whatever stands before it, unless it stands inside
quotes, so a text is divided at a mark into two that are divided for themselves. The main statement
says that these are all divisions: where a mark is among the tokens, the text falls apart there.
-/

namespace TapeMachine.Json

namespace Inside

/-- The tokens that one character ends or is, and what the lexer is inside of after it. -/
def take : Inside → Char → Option (List Token × Inside)
  | nothing, c =>
      if isSpace c then some ([], nothing)
      else if isMark c then some ([.mark c], nothing)
      else if c = '"' then some ([], text [])
      else some ([], word [c])
  | word done, c =>
      if isSpace c then some ([.word done.reverse], nothing)
      else if isMark c then some ([.word done.reverse, .mark c], nothing)
      else if c = '"' then some ([.word done.reverse], text [])
      else some ([], word (c :: done))
  | text done, c =>
      if c = '"' then some ([.text (assemble done.reverse)], nothing)
      else if c = '\\' then some ([], escape done)
      else if c.toNat < 32 then none
      else some ([], text (.char c :: done))
  | escape done, c =>
      if c = 'u' then some ([], code done 0 0)
      else (unescape? c).map fun meant => ([], text (.char meant :: done))
  | code done digits value, c =>
      (hexValue? c).map fun digit =>
        if digits = 3 then ([], text (.code (value * 16 + digit) :: done))
        else ([], code done (digits + 1) (value * 16 + digit))

/-- The tokens that the end of the text ends. -/
def finish : Inside → Option (List Token)
  | nothing => some []
  | word done => some [.word done.reverse]
  | text _ | escape _ | code _ _ _ => none

end Inside

theorem lexOnto_nil (tokens : List Token) (inside : Inside) :
    lexOnto tokens inside [] = inside.finish.map (tokens.reverse ++ ·) := by
  cases inside <;> simp [lexOnto, Inside.finish]

theorem lexOnto_cons (tokens : List Token) (inside : Inside) (c : Char) (rest : List Char) :
    lexOnto tokens inside (c :: rest) =
      inside.take c >>= fun taken => lexOnto (taken.1.reverse ++ tokens) taken.2 rest := by
  cases inside with
  | nothing =>
      simp only [lexOnto, Inside.take]
      split_ifs <;> rfl
  | word done =>
      simp only [lexOnto, Inside.take]
      split_ifs <;> rfl
  | text done =>
      simp only [lexOnto, Inside.take]
      split_ifs <;> rfl
  | escape done =>
      simp only [lexOnto, Inside.take]
      split_ifs
      · rfl
      · cases unescape? c <;> rfl
  | code done digits value =>
      simp only [lexOnto, Inside.take]
      cases hexValue? c with
      | none => rfl
      | some digit =>
          simp only [Option.map_some]
          split_ifs <;> rfl

/-- The tokens of a text when the lexer is already inside of something. -/
def lexFrom (inside : Inside) (characters : List Char) : Option (List Token) :=
  lexOnto [] inside characters

theorem lex_eq_lexFrom (text : String) : lex text = lexFrom .nothing text.toList :=
  rfl

theorem lexOnto_eq_map (tokens : List Token) (inside : Inside) (characters : List Char) :
    lexOnto tokens inside characters = (lexFrom inside characters).map (tokens.reverse ++ ·) := by
  induction characters generalizing tokens inside with
  | nil => rw [lexFrom, lexOnto_nil, lexOnto_nil, Option.map_map]; rfl
  | cons c rest ih =>
      rw [lexFrom, lexOnto_cons, lexOnto_cons]
      cases inside.take c with
      | none => rfl
      | some taken =>
          change lexOnto (taken.1.reverse ++ tokens) taken.2 rest =
            (lexOnto (taken.1.reverse ++ []) taken.2 rest).map (tokens.reverse ++ ·)
          rw [ih, ih (taken.1.reverse ++ []), Option.map_map]
          congr 1
          funext others
          simp

theorem lexFrom_nil (inside : Inside) : lexFrom inside [] = inside.finish := by
  rw [lexFrom, lexOnto_nil]
  cases inside.finish <;> rfl

theorem lexFrom_cons_of_take {inside inside' : Inside} {c : Char} {taken : List Token}
    (h : inside.take c = some (taken, inside')) (rest : List Char) :
    lexFrom inside (c :: rest) = (lexFrom inside' rest).map (taken ++ ·) := by
  rw [lexFrom, lexOnto_cons, h]
  change lexOnto (taken.reverse ++ []) inside' rest = _
  rw [lexOnto_eq_map, List.append_nil, List.reverse_reverse]

theorem lexFrom_cons_of_silent {inside inside' : Inside} {c : Char}
    (h : inside.take c = some ([], inside')) (rest : List Char) :
    lexFrom inside (c :: rest) = lexFrom inside' rest := by
  rw [lexFrom_cons_of_take h]
  exact Option.map_id' ..

theorem lexFrom_cons_eq_some {inside : Inside} {c : Char} {rest : List Char}
    {tokens : List Token} : lexFrom inside (c :: rest) = some tokens ↔
      ∃ taken inside' others, inside.take c = some (taken, inside') ∧
        lexFrom inside' rest = some others ∧ taken ++ others = tokens := by
  cases htake : inside.take c with
  | none =>
      rw [lexFrom, lexOnto_cons, htake]
      simp
  | some pair =>
      obtain ⟨taken, inside'⟩ := pair
      rw [lexFrom_cons_of_take htake, Option.map_eq_some_iff]
      constructor
      · rintro ⟨others, hothers, rfl⟩
        exact ⟨taken, inside', others, rfl, hothers, rfl⟩
      · rintro ⟨taken', inside'', others, heq, hothers, rfl⟩
        obtain ⟨rfl, rfl⟩ := Prod.mk.inj (Option.some.inj heq)
        exact ⟨others, hothers, rfl⟩

/-! Marks. -/

/-- What stands before a mark ends there as it would at the end of the text. -/
theorem take_mark {inside : Inside} {mark : Char} (hmark : isMark mark = true)
    {ended : List Token} (h : inside.finish = some ended) :
    inside.take mark = some (ended ++ [.mark mark], .nothing) := by
  have hspace : isSpace mark = false := by
    simp only [isMark, Bool.or_eq_true, beq_iff_eq] at hmark
    rcases hmark with ((((rfl | rfl) | rfl) | rfl) | rfl) | rfl <;> rfl
  cases inside with
  | nothing =>
      obtain rfl := Option.some.inj h
      simp [Inside.take, hspace, hmark]
  | word done =>
      obtain rfl := Option.some.inj h
      simp [Inside.take, hspace, hmark]
  | text done => cases h
  | escape done => cases h
  | code done digits value => cases h

/-- Between quotes nothing is ended but the quoted text itself. -/
theorem take_between_quotes {inside inside' : Inside} {c : Char} {taken : List Token}
    (h : inside.take c = some (taken, inside')) (hopen : inside.finish = none) :
    taken = [] ∧ inside'.finish = none ∨ ∃ value, taken = [.text value] := by
  cases inside with
  | nothing => cases hopen
  | word done => cases hopen
  | text done =>
      simp only [Inside.take] at h
      split_ifs at h <;> cases h
      · exact .inr ⟨_, rfl⟩
      · exact .inl ⟨rfl, rfl⟩
      · exact .inl ⟨rfl, rfl⟩
  | escape done =>
      simp only [Inside.take] at h
      split_ifs at h
      · cases h
        exact .inl ⟨rfl, rfl⟩
      · obtain ⟨meant, -, heq⟩ := Option.map_eq_some_iff.1 h
        cases heq
        exact .inl ⟨rfl, rfl⟩
  | code done digits value =>
      simp only [Inside.take] at h
      obtain ⟨digit, -, heq⟩ := Option.map_eq_some_iff.1 h
      split_ifs at heq <;> cases heq <;> exact .inl ⟨rfl, rfl⟩

/-- Only a mark is taken for one, and only where the text could have ended. -/
theorem mark_of_mem_take {inside inside' : Inside} {c mark : Char} {taken : List Token}
    (h : inside.take c = some (taken, inside')) (hmem : .mark mark ∈ taken) :
    isMark mark = true ∧ c = mark ∧ inside' = .nothing ∧
      ∃ ended, inside.finish = some ended ∧ taken = ended ++ [.mark mark] := by
  cases inside with
  | nothing =>
      simp only [Inside.take] at h
      split_ifs at h with hspace hmark hquote <;> cases h <;>
        simp only [List.mem_singleton, List.not_mem_nil, Token.mark.injEq] at hmem
      subst hmem
      exact ⟨hmark, rfl, rfl, [], rfl, rfl⟩
  | word done =>
      simp only [Inside.take] at h
      split_ifs at h with hspace hmark hquote <;> cases h <;>
        simp only [List.mem_cons, List.not_mem_nil, Token.mark.injEq, reduceCtorEq, false_or,
          or_false] at hmem
      subst hmem
      exact ⟨hmark, rfl, rfl, [.word done.reverse], rfl, rfl⟩
  | _ =>
      obtain ⟨rfl, -⟩ | ⟨value, rfl⟩ := take_between_quotes h rfl
      · cases hmem
      · cases List.mem_singleton.1 hmem

theorem not_mark_mem_finish {inside : Inside} {ended : List Token}
    (h : inside.finish = some ended) (mark : Char) : .mark mark ∉ ended := by
  cases inside with
  | nothing => cases h; simp
  | word done => cases h; simp
  | text done => cases h
  | escape done => cases h
  | code done digits value => cases h

theorem eq_of_append_mark {token : Token} {before between ended : List Token}
    (h : before ++ token :: between = ended ++ [token]) (hnot : token ∉ ended) :
    before = ended ∧ between = [] := by
  rcases between.eq_nil_or_concat with rfl | ⟨others, last, rfl⟩
  · exact ⟨List.append_cancel_right h, rfl⟩
  · rw [List.concat_eq_append, ← List.cons_append, ← List.append_assoc] at h
    obtain ⟨rfl, -⟩ := List.append_inj' h rfl
    exact absurd (List.mem_append_right _ List.mem_cons_self) hnot

/-- After a mark the lexer begins anew. -/
theorem lexFrom_append_mark {inside : Inside} {before : List Char} {tokens : List Token}
    (h : lexFrom inside before = some tokens) {mark : Char} (hmark : isMark mark = true)
    (after : List Char) : lexFrom inside (before ++ mark :: after) =
      (lexFrom .nothing after).map (tokens ++ .mark mark :: ·) := by
  induction before generalizing inside tokens with
  | nil =>
      rw [lexFrom_nil] at h
      rw [List.nil_append, lexFrom_cons_of_take (take_mark hmark h)]
      simp
  | cons c before ih =>
      obtain ⟨taken, inside', others, htake, hothers, rfl⟩ := lexFrom_cons_eq_some.1 h
      rw [List.cons_append, lexFrom_cons_of_take htake, ih hothers, Option.map_map]
      congr 1
      funext rest
      simp

/-- A text with a mark among its tokens falls apart into what comes before that mark and after. -/
theorem exists_split_of_mark {inside : Inside} {characters : List Char}
    {before after : List Token} {mark : Char}
    (h : lexFrom inside characters = some (before ++ .mark mark :: after)) :
    ∃ first second, characters = first ++ mark :: second ∧ isMark mark = true ∧
      lexFrom inside first = some before ∧ lexFrom .nothing second = some after := by
  induction characters generalizing inside before with
  | nil =>
      rw [lexFrom_nil] at h
      exact absurd (List.mem_append_right _ List.mem_cons_self) (not_mark_mem_finish h mark)
  | cons c rest ih =>
      obtain ⟨taken, inside', others, htake, hothers, heq⟩ := lexFrom_cons_eq_some.1 h
      -- The mark is either among the tokens that this character completes or a later one.
      rcases List.append_eq_append_iff.1 heq with ⟨between, rfl, rfl⟩ | ⟨between, rfl, hafter⟩
      · obtain ⟨first, second, rfl, hmark, hfirst, hsecond⟩ := ih hothers
        exact ⟨c :: first, second, rfl, hmark,
          lexFrom_cons_eq_some.2 ⟨taken, inside', between, htake, hfirst, rfl⟩, hsecond⟩
      · cases between with
        | nil =>
            have hothers' : lexFrom inside' rest = some ([] ++ .mark mark :: after) := by
              rw [hothers, hafter]
              rfl
            obtain ⟨first, second, rfl, hmark, hfirst, hsecond⟩ := ih hothers'
            refine ⟨c :: first, second, rfl, hmark, ?_, hsecond⟩
            rw [lexFrom_cons_of_take htake, hfirst]
            simp
        | cons token between =>
            obtain ⟨rfl, rfl⟩ := List.cons.inj hafter
            obtain ⟨hmark, rfl, rfl, ended, hended, htaken⟩ := mark_of_mem_take htake
              (List.mem_append_right _ List.mem_cons_self)
            obtain ⟨rfl, rfl⟩ := eq_of_append_mark htaken (not_mark_mem_finish hended _)
            exact ⟨[], rest, rfl, hmark, (lexFrom_nil inside).trans hended, hothers⟩

end TapeMachine.Json
