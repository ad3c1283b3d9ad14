import LambdaCalc.Program
import LambdaCalc.Token.Source

namespace LambdaCalc

/-- `budget` bounds every reduction that the text asks for, and `patience` the one that has
neither a count nor a budget. -/
structure Reader where
  source : Source
  current : Token := .endOfInput
  program : Program := {}
  supply : Supply := {}
  budget : Nat
  patience : Nat
  deriving DecidableEq

/-- Work that reads and can fail. What was read before a failure stays read. -/
abbrev Read := EStateM Error Reader

namespace Read

/-- Lets a converter draw from the reader's supply. -/
def ofAttempt (work : Attempt α) : Read α := fun r =>
  match work r.supply with
  | .ok a supply => .ok a { r with supply := supply }
  | .error e supply => .error e { r with supply := supply }

instance : MonadLift Attempt Read := ⟨ofAttempt⟩

/-- Moves on to the next token. -/
def advance : Read Unit := fun r =>
  let found := r.source.next
  match found.1 with
  | .ok token => .ok () { r with source := found.2, current := token }
  | .error e => .error e { r with source := found.2 }

def current : Read Token := return (← get).current

/-- No more tokens can be read than there are places in this list. -/
def room : Read (List Char) := return (← get).source.room

/-- A reserved word is reported as such, wherever it stands. -/
def failure (wanted : Expectation) : Token → Error
  | .reserved word => .reservedWord word
  | found => .unexpected wanted found

/-- The current token is not what it should be. -/
def refuse (wanted : Expectation) : Read α := do
  throw (failure wanted (← current))

def expect (operator : Operator) (wanted : Expectation) : Read Unit := do
  if (← current) = .operator operator then advance else refuse wanted

def identifier (wanted : Expectation) : Read String := do
  match ← current with
  | .identifier word => advance; return word
  | _ => refuse wanted

def name (wanted : Expectation) : Read String := do
  match ← current with
  | .name word => advance; return word
  | _ => refuse wanted

end Read

end LambdaCalc
