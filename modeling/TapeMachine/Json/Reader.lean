import TapeMachine.Json.Text
import TapeMachine.Json.Value

/-!
Reading JSON, strictly: no comma before a closing bracket, no control character inside a text,
nothing but blanks around the value. A text is first divided into tokens, and the tokens are then
read from left to right, with the open arrays and objects on a stack.
-/

namespace TapeMachine.Json

inductive Token where
  | mark (c : Char)
  | word (characters : List Char)
  | text (value : Option String)
deriving DecidableEq

/-- What the lexer is inside of. Characters and pieces so far are in reverse. -/
inductive Inside where
  | nothing
  | word (done : List Char)
  | text (done : List Piece)
  | escape (done : List Piece)
  | code (done : List Piece) (digits value : Nat)

def isSpace (c : Char) : Bool :=
  c == ' ' || c == '\n' || c == '\t' || c == '\r'

def isMark (c : Char) : Bool :=
  c == '[' || c == ']' || c == '\x7b' || c == '\x7d' || c == ',' || c == ':'

/-- Divides a text into tokens. A word is a run of characters that are neither blank nor a mark
nor a quote. -/
def lexOnto (tokens : List Token) : Inside → List Char → Option (List Token)
  | .nothing, [] => some tokens.reverse
  | .word done, [] => some (.word done.reverse :: tokens).reverse
  | .nothing, c :: rest =>
      if isSpace c then lexOnto tokens .nothing rest
      else if isMark c then lexOnto (.mark c :: tokens) .nothing rest
      else if c = '"' then lexOnto tokens (.text []) rest
      else lexOnto tokens (.word [c]) rest
  | .word done, c :: rest =>
      let tokens' := .word done.reverse :: tokens
      if isSpace c then lexOnto tokens' .nothing rest
      else if isMark c then lexOnto (.mark c :: tokens') .nothing rest
      else if c = '"' then lexOnto tokens' (.text []) rest
      else lexOnto tokens (.word (c :: done)) rest
  | .text done, c :: rest =>
      if c = '"' then lexOnto (.text (assemble done.reverse) :: tokens) .nothing rest
      else if c = '\\' then lexOnto tokens (.escape done) rest
      else if c.toNat < 32 then none
      else lexOnto tokens (.text (.char c :: done)) rest
  | .escape done, c :: rest =>
      if c = 'u' then lexOnto tokens (.code done 0 0) rest
      else match unescape? c with
        | some meant => lexOnto tokens (.text (.char meant :: done)) rest
        | none => none
  | .code done digits value, c :: rest =>
      match hexValue? c with
      | none => none
      | some digit =>
          let value := value * 16 + digit
          if digits = 3 then lexOnto tokens (.text (.code value :: done)) rest
          else lexOnto tokens (.code done (digits + 1) value) rest
  | .text _, [] | .escape _, [] | .code _ _ _, [] => none

def lex (text : String) : Option (List Token) :=
  lexOnto [] .nothing text.toList

def isDigit (c : Char) : Bool :=
  '0' ≤ c && c ≤ '9'

/-- Nothing, or the letter `e`, a sign that may be missing, and digits. -/
def isExponent : List Char → Bool
  | [] => true
  | e :: rest =>
      let digits := match rest with
        | '+' :: digits | '-' :: digits => digits
        | digits => digits
      (e == 'e' || e == 'E') && !digits.isEmpty && digits.all isDigit

/-- What may follow the integer part of a number. -/
def isFraction : List Char → Bool
  | '.' :: rest =>
      !(rest.takeWhile isDigit).isEmpty && isExponent (rest.dropWhile isDigit)
  | rest => isExponent rest

/-- A number without its sign. A zero at its front is its whole integer part. -/
def isMagnitude : List Char → Bool
  | '0' :: rest => isFraction rest
  | c :: rest => isDigit c && isFraction (rest.dropWhile isDigit)
  | [] => false

def isNumber : List Char → Bool
  | '-' :: rest => isMagnitude rest
  | rest => isMagnitude rest

def ofWord (word : List Char) : Option Json :=
  if word = "null".toList then some .null
  else if word = "true".toList then some (.bool true)
  else if word = "false".toList then some (.bool false)
  else if isNumber word then some (.number (String.ofList word))
  else none

/-- An open array or object, with what it holds so far in reverse. -/
inductive Open where
  | array (items : List Json)
  | object (members : List (Option String × Json)) (key : Option String)

/-- What the reader is to find next. -/
inductive Expecting where
  | value (stack : List Open)
  | firstItem (stack : List Open)
  | firstKey (stack : List Open)
  | key (members : List (Option String × Json)) (stack : List Open)
  | colon (members : List (Option String × Json)) (key : Option String) (stack : List Open)
  | separator (value : Json) (stack : List Open)

/-- Takes in the beginning of a value. -/
def beginValue (stack : List Open) : Token → Option Expecting
  | .word word => (ofWord word).map (.separator · stack)
  | .text value => some (.separator (.text value) stack)
  | .mark '[' => some (.firstItem stack)
  | .mark '\x7b' => some (.firstKey stack)
  | .mark _ => none

/-- Takes in one token. -/
def Expecting.next : Expecting → Token → Option Expecting
  | value stack, token => beginValue stack token
  | firstItem stack, .mark ']' => some (.separator (.array []) stack)
  | firstItem stack, token => beginValue (.array [] :: stack) token
  | firstKey stack, .mark '\x7d' => some (.separator (.object []) stack)
  | firstKey stack, .text name => some (.colon [] name stack)
  | key members stack, .text name => some (.colon members name stack)
  | colon members name stack, .mark ':' => some (.value (.object members name :: stack))
  | separator last (.array items :: stack), .mark ',' => some (.value (.array (last :: items) :: stack))
  | separator last (.array items :: stack), .mark ']' =>
      some (.separator (.array (last :: items).reverse) stack)
  | separator last (.object members name :: stack), .mark ',' =>
      some (.key ((name, last) :: members) stack)
  | separator last (.object members name :: stack), .mark '\x7d' =>
      some (.separator (.object ((name, last) :: members).reverse) stack)
  | _, _ => none

def readTokens : Expecting → List Token → Option Json
  | .separator value [], [] => some value
  | _, [] => none
  | expecting, token :: rest => expecting.next token >>= (readTokens · rest)

def read (text : String) : Option Json :=
  lex text >>= readTokens (.value [])

end TapeMachine.Json
