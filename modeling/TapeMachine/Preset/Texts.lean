/-!
The definition documents of the built-in machines.
-/

namespace TapeMachine.Preset

def exactlyOneZeroText : String :=
  "# Accepts binary strings that contain exactly one 0.
name: Exactly one zero
input: 101
initial: q0
final: qf
blank: _
rules:
  q0,1 → q0,1,R
  q0,0 → q1,0,R
  q1,1 → q1,1,R
  q1,_ → qf,_,R
"

def binaryIncrementText : String :=
  "# Adds one to a binary number. The head runs to the right end, then carries leftwards.
name: Binary increment
input: 1011
initial: right
final: done
blank: _
rules:
  right,0 → right,0,R
  right,1 → right,1,R
  right,_ → carry,_,L
  carry,1 → carry,0,L
  carry,0 → done,1,L
  carry,_ → done,1,L
"

def evenOnesText : String :=
  "# Accepts binary strings with an even number of 1s.
name: Even number of ones
input: 1001
initial: even
final: accept
blank: _
rules:
  even,0 → even,0,R
  even,1 → odd,1,R
  odd,0 → odd,0,R
  odd,1 → even,1,R
  even,_ → accept,_,R
"

def palindromeText : String :=
  "# Accepts palindromes over \x7ba, b\x7d by erasing matching symbols from both ends.
name: Palindrome
input: abba
initial: q0
final: yes
blank: _
rules:
  q0,a → qa,_,R
  q0,b → qb,_,R
  q0,_ → yes,_,R
  qa,a → qa,a,R
  qa,b → qa,b,R
  qa,_ → ca,_,L
  ca,a → back,_,L
  ca,_ → yes,_,R
  qb,a → qb,a,R
  qb,b → qb,b,R
  qb,_ → cb,_,L
  cb,b → back,_,L
  cb,_ → yes,_,R
  back,a → back,a,L
  back,b → back,b,L
  back,_ → q0,_,R
"

def busyBeaverText : String :=
  "# Two-state busy beaver: writes four 1s in six steps, growing the tape to the left.
name: Busy beaver (2 states)
input:
initial: A
final: H
blank: 0
rules:
  A,0 → B,1,R
  A,1 → B,1,L
  B,0 → A,1,L
  B,1 → H,1,R
"

end TapeMachine.Preset
