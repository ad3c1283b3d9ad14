import LambdaCalc.Error
import LambdaCalc.Term.Basic

namespace LambdaCalc

/-- Work that draws from a supply and can fail. What was drawn before a failure stays drawn. -/
abbrev Attempt := EStateM Error Supply

namespace Attempt

/-- Work that only draws from the supply never fails. -/
def ofFresh (work : Fresh α) : Attempt α := fun s =>
  let (a, s') := work s
  .ok a s'

instance : MonadLift Fresh Attempt := ⟨ofFresh⟩

end Attempt

end LambdaCalc
