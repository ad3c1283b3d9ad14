import LambdaCalc.Term.Basic

namespace LambdaCalc.Term

/-- Puts a copy in the place of every bound occurrence of the identity, from left to right, but
leaves a lambda alone whose own head has it. The answer is `none` for a term that stays as it is, so
that a caller can keep the old node. -/
def substitute? (id : Nat) (copy : Fresh Term) : Term → Fresh (Option Term)
  | var node v => do
    if v.bound && v.id == id then
      let t ← copy
      return if t = var node v then none else some t
    else return none
  | lam _ head body => do
    if head.id = id then return none
    else rebuildLam head (← substitute? id copy body)
  | app _ fn arg => do
    let fn' ← substitute? id copy fn
    let arg' ← substitute? id copy arg
    rebuildApp fn arg fn' arg'

def substitute (id : Nat) (copy : Fresh Term) (t : Term) : Fresh Term :=
  return (← t.substitute? id copy).getD t

/-- Gives every lambda a fresh head, an outer one before an inner one and those of a function
before those of its argument. `heads` maps the identities of the enclosing lambdas to their fresh
heads, the innermost one first. -/
def refresh? (heads : List (Nat × Variable)) : Term → Fresh (Option Term)
  | var _ v =>
    match heads.lookup v.id with
    | some head => some <$> newVar head
    | none => return none
  | lam _ head body => do
    let fresh ← Variable.newBound head.name
    let body' ← refresh? ((head.id, fresh) :: heads) body
    some <$> newLam fresh (body'.getD body)
  | app _ fn arg => do
    let fn' ← refresh? heads fn
    let arg' ← refresh? heads arg
    rebuildApp fn arg fn' arg'

/-- A copy whose lambdas all have fresh heads, so that it can stand in one term with the copied
term and with other copies: no two lambdas of a term must share an identity. -/
def refresh (t : Term) : Fresh Term :=
  return (← t.refresh? []).getD t

end LambdaCalc.Term
