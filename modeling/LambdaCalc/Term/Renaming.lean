import LambdaCalc.Attempt
import LambdaCalc.Term.Substitution

namespace LambdaCalc.Term

/-- Whether renaming the variable to `new` would change what the term means. One of its
occurrences could come under an inner lambda of that name, or another variable of that name that
is free here could come under the renamed lambda. `inner` holds the heads between the renamed
lambda and the term. -/
def clashes (id : Nat) (new : String) (inner : List Variable) : Term → Bool
  | var _ v =>
    if v.id = id then inner.any (·.name == new)
    else v.name == new && !inner.any (·.id == v.id)
  | lam _ head body => clashes id new (head :: inner) body
  | app _ fn arg => clashes id new inner fn || clashes id new inner arg

/-- All renamed occurrences are one shared node. -/
def renameHead (head : Variable) (new : String) (body : Term) : Fresh Term := do
  let occurrence ← newVar (head.renamed new)
  newLam (head.renamed new) (← body.substitute head.id (pure occurrence))

/-- Renames the first lambda of the old name together with its occurrences, or answers `none` if
there is none. An outer lambda comes before an inner one, and a function before its argument. -/
def renameFirst? (old new : String) : Term → Attempt (Option Term)
  | var _ _ => return none
  | lam _ head body => do
    if head.name = old then
      if clashes head.id new [] body then throw (.nameClash old new)
      else return some (← renameHead head new body)
    else rebuildLam head (← renameFirst? old new body)
  | app _ fn arg => do
    match ← renameFirst? old new fn with
    | some fn' => return some (← newApp fn' arg)
    | none => rebuildApp fn arg none (← renameFirst? old new arg)

/-- Renaming a variable to its own name changes nothing. -/
def rename? (old new : String) (t : Term) : Attempt (Option Term) :=
  if old = new then return none else t.renameFirst? old new

def rename (old new : String) (t : Term) : Attempt Term :=
  return (← t.rename? old new).getD t

end LambdaCalc.Term
