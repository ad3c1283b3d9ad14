import LambdaCalc.Reader.Statement

namespace LambdaCalc

namespace Read

/-- Executes one statement after the other, at most as many as asked. -/
def outcomes : Nat → Read (List Term)
  | 0 => throw .unfinished
  | n + 1 => do
    match ← statement with
    | none => return []
    | some c => do
      let t ← c.execute (← get).patience
      return t :: (← outcomes n)

end Read

namespace Script

/-- The outcome of every statement of a text, or the first error alone. Every statement takes a
character at least. -/
def run (text : List Char) (budget patience : Nat) : Except Error (List Term) :=
  match Read.outcomes (text.length + 1)
      { source := { input := text }, budget := budget, patience := patience } with
  | .ok terms _ => .ok terms
  | .error e _ => .error e

/-- The outcomes one line each. -/
def print (terms : List Term) : String := "\n".intercalate (terms.map Term.print)

end Script

end LambdaCalc
