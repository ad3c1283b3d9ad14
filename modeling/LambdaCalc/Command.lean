import LambdaCalc.Term.Printer
import LambdaCalc.Term.Reduction
import LambdaCalc.Term.Renaming

namespace LambdaCalc

/-- Reduction by a number of steps, where `0` asks for the normal form, within a budget of steps,
where `0` sets none. -/
structure BetaReduction where
  steps : Nat
  budget : Nat
  deriving DecidableEq

inductive Conversion
  | identity
  | alpha (old new : String)
  | beta (reduction : BetaReduction)
  deriving DecidableEq

structure Command where
  term : Term
  conversion : Conversion
  deriving DecidableEq

namespace BetaReduction

/-- Reduces a term on which some steps were done. The next step is always computed, and thrown
away when the budget does not allow it. -/
def proceed (b : BetaReduction) : Nat → Nat → Term → Attempt Term
  | 0, _, _ => throw .unfinished
  | rounds + 1, done, t => do
    match ← t.step? with
    | none => return t
    | some next =>
      if b.budget ≠ 0 ∧ done = b.budget then
        if b.steps = 0 then throw (.budgetExceeded b.budget) else return t
      else if b.steps ≠ 0 ∧ done + 1 = b.steps then return next
      else b.proceed rounds (done + 1) next

/-- How many steps are computed at most. Only a reduction to normal form without a budget has no
bound of its own, and is given `patience`. -/
def rounds (b : BetaReduction) (patience : Nat) : Nat :=
  if b.steps ≠ 0 then b.steps
  else if b.budget ≠ 0 then b.budget + 1
  else patience

def execute (b : BetaReduction) (patience : Nat) (t : Term) : Attempt Term :=
  b.proceed (b.rounds patience) 0 t

end BetaReduction

namespace Conversion

def execute (patience : Nat) : Conversion → Term → Attempt Term
  | identity, t => return t
  | alpha old new, t => t.rename old new
  | beta reduction, t => reduction.execute patience t

/-- A conversion as it is written after a term. -/
def text : Conversion → String
  | identity => ""
  | alpha old new => old ++ ">" ++ new
  | beta reduction => toString reduction.steps ++ ">"

end Conversion

namespace Command

/-- The outcome is not kept, so every execution starts from the stored term again. -/
def execute (patience : Nat) (c : Command) : Attempt Term :=
  c.conversion.execute patience c.term

/-- A command as it is written in a program. -/
def text (c : Command) : String :=
  match c.conversion with
  | .identity => c.term.print ++ ";"
  | conversion => c.term.print ++ " " ++ conversion.text ++ ";"

end Command

end LambdaCalc
