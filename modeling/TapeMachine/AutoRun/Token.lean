/-!
Cancellation tokens. Cancelling a token reaches the tokens derived from it, never the one it was
derived from, and cannot be taken back.
-/

namespace TapeMachine

/-- A token is known by its number and by those of the tokens it is derived from. -/
structure Token where
  number : Nat
  ancestors : List Nat
deriving DecidableEq

/-- The tokens issued so far, and the numbers of those that were cancelled. -/
structure Tokens where
  issued : Nat
  cancelled : List Nat
deriving DecidableEq

namespace Tokens

def empty : Tokens := ⟨0, []⟩

def issue (tokens : Tokens) (parent : Option Token) : Token × Tokens :=
  let ancestors := parent.elim [] fun token => token.number :: token.ancestors
  (⟨tokens.issued, ancestors⟩, { tokens with issued := tokens.issued + 1 })

def cancel (tokens : Tokens) (token : Token) : Tokens :=
  { tokens with cancelled := token.number :: tokens.cancelled }

def isCancelled (tokens : Tokens) (token : Token) : Bool :=
  (token.number :: token.ancestors).any (tokens.cancelled.contains ·)

end Tokens

end TapeMachine
