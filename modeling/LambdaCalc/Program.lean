import LambdaCalc.Command

namespace LambdaCalc

/-- A name is bound to the first command that stands behind it; commands that it was bound to
before may follow. -/
structure Program where
  named : List (String × Command) := []
  last : Option Command := none
  deriving DecidableEq

namespace Program

def get? (p : Program) (name : String) : Option Command := p.named.lookup name

def contains (p : Program) (name : String) : Bool := (p.get? name).isSome

/-- A name that is bound once more loses its old command. -/
def insert (p : Program) (name : String) (c : Command) : Program :=
  { p with named := (name, c) :: p.named }

def setLast (p : Program) (c : Command) : Program := { p with last := some c }

def hasNames (p : Program) : Bool := !p.named.isEmpty

/-- All bound names, each of them once, sorted by their code points. -/
def names (p : Program) : List String := ((p.named.map (·.1)).mergeSort (· ≤ ·)).eraseReps

theorem get?_insert (p : Program) (name other : String) (c : Command) :
    (p.insert name c).get? other = if other = name then some c else p.get? other := by
  unfold insert get?
  rw [List.lookup_cons]
  by_cases h : other = name
  · simp [h]
  · simp [h, beq_eq_false_iff_ne.mpr h]

end Program

end LambdaCalc
