import LambdaCalc.Reader.Basic
import LambdaCalc.Term.Church
import LambdaCalc.Text.Decimal

namespace LambdaCalc.Read

/-- A count in decimal digits. -/
def count (digits : String) : Read Nat :=
  match Text.Decimal.bounded? digits.toList with
  | some n => return n
  | none => throw (.countTooLarge digits)

def numeral (digits : String) : Read Term := do
  let n ← count digits
  if numeralBound < n then throw (.numeralTooLarge digits)
  else Term.numeral n

/-- An occurrence belongs to the innermost enclosing lambda whose head has its name. One without
such a lambda is a free variable of its own. -/
def occurrence (scope : List Variable) (word : String) : Read Term := do
  match scope.find? (·.name == word) with
  | some head => Term.newVar head
  | none => Term.newVar (← Variable.newFree word)

/-- A name stands for the outcome of its command, with lambdas of its own. -/
def expansion (name : String) : Read Term := do
  let r ← get
  match r.program.get? name with
  | some c => (← c.execute r.patience).refresh
  | none => throw (.undefinedName name)

/-- Reads a term:

    expression := '\' IDENTIFIER '.' expression
                | '(' expression ')' expression?
                | IDENTIFIER | LITERAL | NAME

Brackets that are followed by something with which an expression can begin make an application;
otherwise they only group. The nesting must be less than the number of places in `room`. The first
heads of the scope are those of the innermost lambdas. -/
def expressionWithin : List Char → List Variable → Read Term
  | [], _ => throw .unfinished
  | _ :: room, scope => do
    match ← current with
    | .operator .lambda => do
      advance
      let word ← identifier .lambdaHead
      expect .dot .lambdaDot
      let head ← Variable.newBound word
      Term.newLam head (← expressionWithin room (head :: scope))
    | .operator .openBracket => do
      advance
      let fn ← expressionWithin room scope
      expect .closeBracket .closingBracket
      if (← current).startsExpression then
        Term.newApp fn (← expressionWithin room scope)
      else return fn
    | .identifier word => do advance; occurrence scope word
    | .number digits => do advance; numeral digits
    | .truth value => do advance; Term.truth value
    | .name word => do advance; expansion word
    | _ => refuse .expression

/-- Reads a term outside all lambdas. Every level of nesting takes a token at least, so the room
that there was before the first token is never used up. -/
def expression (room : List Char) : Read Term := expressionWithin room []

/-- The whole of a text as one term. -/
def wholeExpression : Read Term := do
  let room ← room
  advance
  let t ← expression room
  if (← current) = .endOfInput then return t else refuse .endOfInput

end LambdaCalc.Read

namespace LambdaCalc

/-- Reads a text that is one term and nothing else, in which no name stands for anything. -/
def Term.ofText (text : String) : Attempt Term := fun s =>
  match Read.wholeExpression
      { source := { input := text.toList }, supply := s, budget := 0, patience := 0 } with
  | .ok t r => .ok t r.supply
  | .error e r => .error e r.supply

end LambdaCalc
