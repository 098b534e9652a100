/-!
Texts in JSON: how characters are written between quotes, and how the written pieces are put
together. A character beyond the first 65536 may be written as two surrogates.
-/

namespace TapeMachine.Json

def hexDigit (n : Nat) : Char :=
  if n < 10 then Char.ofNat (n + 48) else Char.ofNat (n + 87)

def hexValue? (c : Char) : Option Nat :=
  if '0' ≤ c ∧ c ≤ '9' then some (c.toNat - 48)
  else if 'a' ≤ c ∧ c ≤ 'f' then some (c.toNat - 87)
  else if 'A' ≤ c ∧ c ≤ 'F' then some (c.toNat - 55)
  else none

/-- The letter that stands for a character after a backslash. -/
def escapeLetter? : Char → Option Char
  | '"' => some '"'
  | '\\' => some '\\'
  | '\x08' => some 'b'
  | '\x0c' => some 'f'
  | '\n' => some 'n'
  | '\r' => some 'r'
  | '\t' => some 't'
  | _ => none

/-- Only quotes, backslashes and the characters below the space are escaped. -/
def escape (c : Char) : List Char :=
  match escapeLetter? c with
  | some letter => ['\\', letter]
  | none =>
      if c.toNat < 32 then ['\\', 'u', '0', '0', hexDigit (c.toNat / 16), hexDigit (c.toNat % 16)]
      else [c]

def quote (text : String) : String :=
  "\"" ++ String.ofList (text.toList.flatMap escape) ++ "\""

/-- The character that a letter after a backslash stands for. -/
def unescape? : Char → Option Char
  | '"' => some '"'
  | '\\' => some '\\'
  | '/' => some '/'
  | 'b' => some '\x08'
  | 'f' => some '\x0c'
  | 'n' => some '\n'
  | 'r' => some '\r'
  | 't' => some '\t'
  | _ => none

/-- A piece of a written text: a character, or a number of 16 bits given by four digits. -/
inductive Piece where
  | char (c : Char)
  | code (value : Nat)
deriving DecidableEq

def isHighSurrogate (code : Nat) : Bool :=
  0xD800 ≤ code && code < 0xDC00

def isLowSurrogate (code : Nat) : Bool :=
  0xDC00 ≤ code && code < 0xE000

/-- Puts the pieces together in front of the reversed characters so far. There is no text when a
surrogate is unpaired. -/
def assembleOnto (done : List Char) : List Piece → Option (List Char)
  | [] => some done.reverse
  | .char c :: rest => assembleOnto (c :: done) rest
  | .code high :: .code low :: rest =>
      if isHighSurrogate high then
        if isLowSurrogate low then
          let value := 0x10000 + (high - 0xD800) * 0x400 + (low - 0xDC00)
          assembleOnto (Char.ofNat value :: done) rest
        else none
      else if isLowSurrogate high then none
      else assembleOnto (Char.ofNat high :: done) (.code low :: rest)
  | .code value :: rest =>
      if isHighSurrogate value || isLowSurrogate value then none
      else assembleOnto (Char.ofNat value :: done) rest

def assemble (pieces : List Piece) : Option String :=
  (assembleOnto [] pieces).map String.ofList

end TapeMachine.Json
