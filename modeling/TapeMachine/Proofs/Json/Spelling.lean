import TapeMachine.Json.Writer
import TapeMachine.Proofs.Json.Lexing
import Mathlib.Data.List.TakeWhile
import Mathlib.Tactic.ByContra

/-!
How the smallest parts of a value are spelled. A text in quotes, a word or a number is one token,
and the token of a quoted text holds that text again, whatever characters it is made of. Blanks are
no token.
-/

namespace TapeMachine.Json

/-! Texts. -/

/-- What the lexer keeps of an escaped character: a control character without a letter of its own
comes back as its number. -/
def piece (c : Char) : Piece :=
  if escapeLetter? c = none ∧ c.toNat < 32 then .code c.toNat else .char c

theorem assembleOnto_code (done : List Char) {value : Nat} (h : value < 0xD800)
    (rest : List Piece) :
    assembleOnto done (.code value :: rest) = assembleOnto (Char.ofNat value :: done) rest := by
  have hhigh : isHighSurrogate value = false := by
    simp only [isHighSurrogate, Bool.and_eq_false_iff, decide_eq_false_iff_not]
    omega
  have hlow : isLowSurrogate value = false := by
    simp only [isLowSurrogate, Bool.and_eq_false_iff, decide_eq_false_iff_not]
    omega
  cases rest with
  | nil => simp [assembleOnto, hhigh, hlow]
  | cons next rest => cases next <;> simp [assembleOnto, hhigh, hlow]

theorem assembleOnto_pieces (done characters : List Char) :
    assembleOnto done (characters.map piece) = some (done.reverse ++ characters) := by
  induction characters generalizing done with
  | nil => simp [assembleOnto]
  | cons c rest ih =>
      have hstep : assembleOnto done (piece c :: rest.map piece) =
          assembleOnto (c :: done) (rest.map piece) := by
        rw [piece]
        split
        · next hcode => rw [assembleOnto_code done (by omega), Char.ofNat_toNat]
        · rfl
      rw [List.map_cons, hstep, ih]
      simp

theorem assemble_pieces (text : String) : assemble (text.toList.map piece) = some text := by
  rw [assemble, assembleOnto_pieces]
  simp

/-- A letter after a backslash is read as the character that it stands for. -/
theorem unescape?_of_escapeLetter? {c letter : Char} (h : escapeLetter? c = some letter) :
    unescape? letter = some c ∧ letter ≠ 'u' := by
  unfold escapeLetter? at h
  split at h <;> cases h <;> exact ⟨rfl, by decide⟩

theorem ne_of_escapeLetter?_eq_none {c : Char} (h : escapeLetter? c = none) :
    c ≠ '"' ∧ c ≠ '\\' := by
  constructor
  · rintro rfl
    cases h
  · rintro rfl
    cases h

theorem hexValue?_hexDigit {n : Nat} (h : n < 16) : hexValue? (hexDigit n) = some n := by
  revert n
  decide

theorem take_hexDigit (done : List Piece) {digits : Nat} (hdigits : digits ≠ 3) (value : Nat)
    {n : Nat} (h : n < 16) : (Inside.code done digits value).take (hexDigit n) =
      some ([], .code done (digits + 1) (value * 16 + n)) := by
  rw [Inside.take, hexValue?_hexDigit h, Option.map_some, if_neg hdigits]

theorem take_lastHexDigit (done : List Piece) (value : Nat) {n : Nat} (h : n < 16) :
    (Inside.code done 3 value).take (hexDigit n) =
      some ([], .text (.code (value * 16 + n) :: done)) := by
  rw [Inside.take, hexValue?_hexDigit h, Option.map_some, if_pos rfl]

theorem lexFrom_quote (rest : List Char) :
    lexFrom .nothing ('"' :: rest) = lexFrom (.text []) rest :=
  lexFrom_cons_of_silent rfl rest

theorem lexFrom_endQuote (done : List Piece) (rest : List Char) :
    lexFrom (.text done) ('"' :: rest) =
      (lexFrom .nothing rest).map (.text (assemble done.reverse) :: ·) := by
  have htake : (Inside.text done).take '"' =
      some ([.text (assemble done.reverse)], .nothing) := rfl
  exact lexFrom_cons_of_take htake rest

theorem lexFrom_backslash (done : List Piece) (rest : List Char) :
    lexFrom (.text done) ('\\' :: rest) = lexFrom (.escape done) rest :=
  lexFrom_cons_of_silent rfl rest

theorem lexFrom_u (done : List Piece) (rest : List Char) :
    lexFrom (.escape done) ('u' :: rest) = lexFrom (.code done 0 0) rest :=
  lexFrom_cons_of_silent rfl rest

theorem lexFrom_space {c : Char} (h : isSpace c = true) (rest : List Char) :
    lexFrom .nothing (c :: rest) = lexFrom .nothing rest := by
  have htake : Inside.nothing.take c = some ([], .nothing) := by
    rw [Inside.take, if_pos h]
  exact lexFrom_cons_of_silent htake rest

theorem lexFrom_escape (done : List Piece) (c : Char) (rest : List Char) :
    lexFrom (.text done) (escape c ++ rest) = lexFrom (.text (piece c :: done)) rest := by
  unfold escape
  split
  · next letter hletter =>
      obtain ⟨hmeant, hne⟩ := unescape?_of_escapeLetter? hletter
      have hpiece : piece c = .char c := by
        rw [piece, hletter]
        exact if_neg nofun
      have htake : (Inside.escape done).take letter = some ([], .text (.char c :: done)) := by
        rw [Inside.take, if_neg hne, hmeant, Option.map_some]
      rw [hpiece, List.cons_append, List.singleton_append, lexFrom_backslash,
        lexFrom_cons_of_silent htake]
  · next hnone =>
      obtain ⟨hquote, hbackslash⟩ := ne_of_escapeLetter?_eq_none hnone
      split
      · next hcode =>
          have hpiece : piece c = .code (c.toNat / 16 * 16 + c.toNat % 16) := by
            rw [Nat.div_add_mod', piece, if_pos ⟨hnone, hcode⟩]
          -- The first two digits are zeros, and the character's number is below 32.
          have hzero : hexDigit 0 = '0' := rfl
          rw [hpiece, ← hzero]
          simp only [List.cons_append, List.nil_append]
          rw [lexFrom_backslash, lexFrom_u,
            lexFrom_cons_of_silent (take_hexDigit done (by decide) 0 (by decide)),
            lexFrom_cons_of_silent (take_hexDigit done (by decide) _ (by decide)),
            lexFrom_cons_of_silent (take_hexDigit done (by decide) _ (by omega)),
            lexFrom_cons_of_silent (take_lastHexDigit done _ (by omega))]
          simp
      · next hplain =>
          have hpiece : piece c = .char c := if_neg fun h => hplain h.2
          have htake : (Inside.text done).take c = some ([], .text (.char c :: done)) := by
            rw [Inside.take, if_neg hquote, if_neg hbackslash, if_neg hplain]
          rw [hpiece, List.singleton_append, lexFrom_cons_of_silent htake]

theorem lexFrom_escapes (done : List Piece) (characters rest : List Char) :
    lexFrom (.text done) (characters.flatMap escape ++ rest) =
      lexFrom (.text ((characters.map piece).reverse ++ done)) rest := by
  induction characters generalizing done with
  | nil => rfl
  | cons c characters ih =>
      rw [List.flatMap_cons, List.append_assoc, lexFrom_escape, ih]
      simp

/-- A text between quotes is one token, which holds it. -/
theorem lex_quoteText (value : Option String) : lex (quoteText value) = some [.text value] := by
  cases value with
  | none => rfl
  | some text =>
      have hquote : (quoteText (some text)).toList = '"' :: (text.toList.flatMap escape ++ ['"']) := by
        simp [quoteText, quote]
      rw [lex_eq_lexFrom, hquote, lexFrom_quote, lexFrom_escapes, List.append_nil,
        lexFrom_endQuote, List.reverse_reverse, assemble_pieces]
      rfl

/-! Words. -/

/-- Whether a character stands for itself in a word. -/
def isPlain (c : Char) : Bool :=
  !isSpace c && !isMark c && c != '"'

theorem lexFrom_word {characters : List Char} (h : ∀ c ∈ characters, isPlain c = true)
    (done : List Char) :
    lexFrom (.word done) characters = some [.word (done.reverse ++ characters)] := by
  induction characters generalizing done with
  | nil => rw [lexFrom_nil, List.append_nil]; rfl
  | cons c rest ih =>
      obtain ⟨hplain, hrest⟩ := List.forall_mem_cons.1 h
      simp only [isPlain, Bool.and_eq_true, Bool.not_eq_true', bne_iff_ne] at hplain
      have htake : (Inside.word done).take c = some ([], .word (c :: done)) := by
        simp [Inside.take, hplain]
      rw [lexFrom_cons_of_silent htake, ih hrest]
      simp

theorem lexFrom_of_isPlain {characters : List Char} (h : ∀ c ∈ characters, isPlain c = true)
    (hne : characters ≠ []) : lexFrom .nothing characters = some [.word characters] := by
  cases characters with
  | nil => exact absurd rfl hne
  | cons c rest =>
      obtain ⟨hplain, hrest⟩ := List.forall_mem_cons.1 h
      simp only [isPlain, Bool.and_eq_true, Bool.not_eq_true', bne_iff_ne] at hplain
      have htake : Inside.nothing.take c = some ([], .word [c]) := by
        simp [Inside.take, hplain]
      rw [lexFrom_cons_of_silent htake, lexFrom_word hrest]
      rfl

/-! Numbers. -/

/-- The characters that numbers are written with. -/
def isNumeral (c : Char) : Bool :=
  isDigit c || c == '-' || c == '+' || c == '.' || c == 'e' || c == 'E'

theorem isPlain_of_isNumeral {c : Char} (h : isNumeral c = true) : isPlain c = true := by
  by_contra hplain
  simp only [isPlain, isSpace, isMark, Bool.and_eq_true, Bool.not_eq_true', Bool.or_eq_false_iff,
    beq_eq_false_iff_ne, bne_iff_ne, ne_eq, not_and_or, not_not] at hplain
  rcases hplain with ((((rfl | rfl) | rfl) | rfl) | ((((rfl | rfl) | rfl) | rfl) | rfl) | rfl) | rfl
  all_goals cases h

theorem isNumeral_of_isDigit {characters : List Char} (h : characters.all isDigit = true) :
    ∀ c ∈ characters, isNumeral c = true := by
  intro c hc
  rw [isNumeral, List.all_eq_true.1 h c hc]
  rfl

theorem isNumeral_of_isExponent {characters : List Char} (h : isExponent characters = true) :
    ∀ c ∈ characters, isNumeral c = true := by
  cases characters with
  | nil => exact fun c hc => absurd hc List.not_mem_nil
  | cons letter rest =>
      simp only [isExponent, Bool.and_eq_true, Bool.or_eq_true, beq_iff_eq] at h
      obtain ⟨⟨hletter, -⟩, hdigits⟩ := h
      refine List.forall_mem_cons.2 ⟨?_, ?_⟩
      · rcases hletter with rfl | rfl <;> rfl
      · split at hdigits
        · exact List.forall_mem_cons.2 ⟨rfl, isNumeral_of_isDigit hdigits⟩
        · exact List.forall_mem_cons.2 ⟨rfl, isNumeral_of_isDigit hdigits⟩
        · exact isNumeral_of_isDigit hdigits

/-- Digits and what follows them. -/
theorem isNumeral_of_dropWhile {characters : List Char}
    (h : ∀ c ∈ characters.dropWhile isDigit, isNumeral c = true) :
    ∀ c ∈ characters, isNumeral c = true := by
  rw [← List.takeWhile_append_dropWhile (p := isDigit) (l := characters)]
  exact List.forall_mem_append.2 ⟨isNumeral_of_isDigit List.all_takeWhile, h⟩

theorem isNumeral_of_isFraction {characters : List Char} (h : isFraction characters = true) :
    ∀ c ∈ characters, isNumeral c = true := by
  unfold isFraction at h
  split at h
  · rw [Bool.and_eq_true] at h
    exact List.forall_mem_cons.2 ⟨rfl, isNumeral_of_dropWhile (isNumeral_of_isExponent h.2)⟩
  · exact isNumeral_of_isExponent h

theorem isNumeral_of_isMagnitude {characters : List Char} (h : isMagnitude characters = true) :
    characters ≠ [] ∧ ∀ c ∈ characters, isNumeral c = true := by
  unfold isMagnitude at h
  split at h
  · exact ⟨List.cons_ne_nil _ _, List.forall_mem_cons.2 ⟨rfl, isNumeral_of_isFraction h⟩⟩
  · next c rest _ =>
      rw [Bool.and_eq_true] at h
      have hfirst : isNumeral c = true := by
        rw [isNumeral, h.1]
        rfl
      exact ⟨List.cons_ne_nil _ _,
        List.forall_mem_cons.2 ⟨hfirst, isNumeral_of_dropWhile (isNumeral_of_isFraction h.2)⟩⟩
  · cases h

theorem isNumeral_of_isNumber {characters : List Char} (h : isNumber characters = true) :
    characters ≠ [] ∧ ∀ c ∈ characters, isNumeral c = true := by
  unfold isNumber at h
  split at h
  · exact ⟨List.cons_ne_nil _ _,
      List.forall_mem_cons.2 ⟨rfl, (isNumeral_of_isMagnitude h).2⟩⟩
  · exact isNumeral_of_isMagnitude h

theorem lexFrom_of_isNumber {characters : List Char} (h : isNumber characters = true) :
    lexFrom .nothing characters = some [.word characters] := by
  obtain ⟨hne, hnumerals⟩ := isNumeral_of_isNumber h
  exact lexFrom_of_isPlain (fun c hc => isPlain_of_isNumeral (hnumerals c hc)) hne

theorem isDigit_of_mem_toDigits {c : Char} {n : Nat} (h : c ∈ Nat.toDigits 10 n) :
    isDigit c = true := by
  have hdigit : c.isDigit = true := Nat.isDigit_of_mem_toDigits (by decide) (by decide) h
  exact hdigit

/-- Only the number zero begins with a zero. -/
theorem head?_toDigits_ne {n : Nat} (h : 0 < n) : (Nat.toDigits 10 n).head? ≠ some '0' := by
  induction n using Nat.strongRecOn with
  | ind n ih =>
      rw [Nat.toDigits_eq_if (by decide)]
      split
      · next hlt =>
          intro heq
          have hdigits : ∀ digit < 10, digit.digitChar = '0' → digit = 0 := by decide
          exact Nat.ne_of_gt h (hdigits n hlt (Option.some.inj heq))
      · next hge =>
          have hfirst := ih (n / 10) (by omega) (by omega)
          cases hlist : Nat.toDigits 10 (n / 10) with
          | nil => exact absurd hlist Nat.toDigits_ne_nil
          | cons c rest => rwa [hlist] at hfirst

theorem isMagnitude_toDigits (n : Nat) : isMagnitude (Nat.toDigits 10 n) = true := by
  cases n with
  | zero => rfl
  | succ n =>
      have hfirst := head?_toDigits_ne n.succ_pos
      have hdigits := fun c => isDigit_of_mem_toDigits (c := c) (n := n + 1)
      cases hlist : Nat.toDigits 10 (n + 1) with
      | nil => exact absurd hlist Nat.toDigits_ne_nil
      | cons c rest =>
          rw [hlist] at hfirst hdigits
          obtain ⟨hdigit, hrest⟩ := List.forall_mem_cons.1 hdigits
          have hend : rest.dropWhile isDigit = [] := List.dropWhile_eq_nil_iff.2 hrest
          have hzero : c ≠ '0' := fun hzero => hfirst (congrArg some hzero)
          rw [isMagnitude, hdigit, hend]
          · rfl
          · exact hzero

theorem isNumber_of_isMagnitude {characters : List Char} (h : isMagnitude characters = true) :
    isNumber characters = true := by
  unfold isNumber
  split
  · cases h
  · exact h

theorem isNumber_toString (n : Int) : isNumber (toString n).toList = true := by
  cases n with
  | ofNat n =>
      rw [show toString (Int.ofNat n) = n.repr from rfl, Nat.toList_repr]
      exact isNumber_of_isMagnitude (isMagnitude_toDigits n)
  | negSucc n =>
      rw [show toString (Int.negSucc n) = "-" ++ (n + 1).repr from rfl, String.toList_append,
        Nat.toList_repr]
      exact isMagnitude_toDigits (n + 1)

/-! Blanks. -/

/-- What has begun becomes a token, if only at the end of the text. -/
theorem eq_nothing_of_no_token {inside : Inside} {characters : List Char}
    (h : lexFrom inside characters = some []) : inside = .nothing := by
  induction characters generalizing inside with
  | nil =>
      rw [lexFrom_nil] at h
      cases inside <;> first | rfl | cases h
  | cons c rest ih =>
      obtain ⟨taken, inside', others, htake, hothers, heq⟩ := lexFrom_cons_eq_some.1 h
      obtain ⟨rfl, rfl⟩ := List.append_eq_nil_iff.1 heq
      obtain rfl := ih hothers
      cases inside with
      | nothing => rfl
      | word done =>
          simp only [Inside.take] at htake
          split_ifs at htake <;> cases htake
      | _ =>
          obtain ⟨-, hopen⟩ | ⟨value, heq⟩ := take_between_quotes htake rfl
          · cases hopen
          · cases heq

theorem lexFrom_eq_nil_iff {characters : List Char} :
    lexFrom .nothing characters = some [] ↔ ∀ c ∈ characters, isSpace c = true := by
  induction characters with
  | nil => exact iff_of_true (lexFrom_nil _) fun c hc => absurd hc List.not_mem_nil
  | cons c rest ih =>
      rw [List.forall_mem_cons, ← ih]
      constructor
      · intro h
        obtain ⟨taken, inside', others, htake, hothers, heq⟩ := lexFrom_cons_eq_some.1 h
        obtain ⟨rfl, rfl⟩ := List.append_eq_nil_iff.1 heq
        obtain rfl := eq_nothing_of_no_token hothers
        simp only [Inside.take] at htake
        split_ifs at htake with hspace
        · exact ⟨hspace, hothers⟩
        all_goals cases htake
      · rintro ⟨hspace, hrest⟩
        rw [lexFrom_space hspace, hrest]

end TapeMachine.Json
