/-!
Blank characters and the trimming of text. Blank means the Unicode property White_Space, which is
wider than the spaces and tabs that may stand between the tokens of a rule.
-/

namespace TapeMachine.Text

/-- The characters with the Unicode property White_Space. -/
def isBlank (c : Char) : Bool :=
  let n := c.toNat
  (9 ≤ n && n ≤ 13) || n == 0x20 || n == 0x85 || n == 0xA0 || n == 0x1680 ||
    (0x2000 ≤ n && n ≤ 0x200A) || n == 0x2028 || n == 0x2029 || n == 0x202F || n == 0x205F ||
    n == 0x3000

/-- The spaces and tabs that may stand between two tokens. -/
def isGap (c : Char) : Bool :=
  c == ' ' || c == '\t'

def trimStart (text : List Char) : List Char :=
  text.dropWhile isBlank

def trimEnd (text : List Char) : List Char :=
  (trimStart text.reverse).reverse

/-- Drops the blank characters at both ends. -/
def trim (text : List Char) : List Char :=
  trimEnd (trimStart text)

/-- Drops the blank characters at both ends of a string. -/
def trimmed (text : String) : String :=
  String.ofList (trim text.toList)

theorem isGap_eq_true {c : Char} : isGap c = true ↔ c = ' ' ∨ c = '\t' := by
  rw [isGap, Bool.or_eq_true, beq_iff_eq, beq_iff_eq]

theorem isBlank_of_isGap {c : Char} (h : isGap c = true) : isBlank c = true := by
  rcases isGap_eq_true.1 h with rfl | rfl <;> decide

@[simp] theorem trim_nil : trim [] = [] := rfl

end TapeMachine.Text
