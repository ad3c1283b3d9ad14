import LambdaCalc.Term.Basic

namespace LambdaCalc.Term

/-- Applies a variable to a term as often as asked. -/
def applyTimes (f : Variable) : Nat → Term → Fresh Term
  | 0, t => return t
  | n + 1, t => do applyTimes f n (← newApp (← newVar f) t)

/-- The numeral `n` applies its first argument `n` times to its second one. -/
def numeral (n : Nat) : Fresh Term := do
  let f ← Variable.newBound "f"
  let x ← Variable.newBound "x"
  let body ← applyTimes f n (← newVar x)
  newLam f (← newLam x body)

/-- A truth value takes two arguments and answers the first one if it is true, else the second. -/
def truth (value : Bool) : Fresh Term := do
  let a ← Variable.newBound "a"
  let b ← Variable.newBound "b"
  newLam a (← newLam b (← newVar (if value then a else b)))

end LambdaCalc.Term
