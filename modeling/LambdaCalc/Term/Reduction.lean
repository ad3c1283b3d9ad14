import LambdaCalc.Term.Substitution

namespace LambdaCalc.Term

/-- Every place that the argument goes to gets a copy of its own. -/
def contract (head : Variable) (body arg : Term) : Fresh Term :=
  body.substitute head.id arg.refresh

/-- One step of reduction, or `none` for a term without a redex. The leftmost outermost redex is
contracted, so that an argument that is thrown away is never reduced. -/
def step? : Term → Fresh (Option Term)
  | var _ _ => return none
  | lam _ head body => do rebuildLam head (← step? body)
  | app _ (lam _ head body) arg => some <$> contract head body arg
  | app _ fn arg => do
    match ← step? fn with
    | some fn' => some <$> newApp fn' arg
    | none => rebuildApp fn arg none (← step? arg)

def step (t : Term) : Fresh Term :=
  return (← t.step?).getD t

end LambdaCalc.Term
