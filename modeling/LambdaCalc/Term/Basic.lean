namespace LambdaCalc

/-- A lambda head, or an occurrence of a variable. An occurrence that a lambda binds carries the
`id` of the head; `bound` tells the variables that come from a lambda head from those that were
free when they were read. -/
structure Variable where
  name : String
  bound : Bool
  id : Nat
  deriving DecidableEq

/-- Every node has a label. Two places with one label hold one shared node. -/
inductive Term
  | var (node : Nat) (v : Variable)
  | lam (node : Nat) (head : Variable) (body : Term)
  | app (node : Nat) (fn arg : Term)
  deriving DecidableEq

/-- The next variable identity and the next node label that were never handed out. -/
structure Supply where
  id : Nat := 0
  node : Nat := 0
  deriving DecidableEq

/-- Work that draws identities and labels from a supply. -/
abbrev Fresh := StateM Supply

def freshId : Fresh Nat := fun s => (s.id, { s with id := s.id + 1 })

def freshNode : Fresh Nat := fun s => (s.node, { s with node := s.node + 1 })

namespace Variable

/-- A new lambda head. -/
def newBound (name : String) : Fresh Variable := return ⟨name, true, ← freshId⟩

/-- A new free variable: no two of them have one identity, so no substitution meets them. -/
def newFree (name : String) : Fresh Variable := return ⟨name, false, ← freshId⟩

/-- Another name for the same variable. -/
def renamed (v : Variable) (name : String) : Variable := { v with name := name }

end Variable

namespace Term

def newVar (v : Variable) : Fresh Term := return var (← freshNode) v

def newLam (head : Variable) (body : Term) : Fresh Term := return lam (← freshNode) head body

def newApp (fn arg : Term) : Fresh Term := return app (← freshNode) fn arg

def node : Term → Nat
  | var n _ => n
  | lam n _ _ => n
  | app n _ _ => n

/-- Two terms are the same when they are one node. -/
def isSame (a b : Term) : Bool := a.node == b.node

/-- Two terms are alike when they agree in everything but the labels of their nodes. -/
def alike : Term → Term → Bool
  | var _ v, var _ w => v == w
  | lam _ v a, lam _ w b => v == w && alike a b
  | app _ f a, app _ g b => alike f g && alike a b
  | _, _ => false

/-- Puts an application back together: the old node if neither part changed, else a new one. -/
def rebuildApp (fn arg : Term) : Option Term → Option Term → Fresh (Option Term)
  | none, none => return none
  | some fn', none => some <$> newApp fn' arg
  | none, some arg' => some <$> newApp fn arg'
  | some fn', some arg' => some <$> newApp fn' arg'

/-- Puts a lambda back together around its changed body. -/
def rebuildLam (head : Variable) : Option Term → Fresh (Option Term)
  | none => return none
  | some body => some <$> newLam head body

theorem isSame_refl (t : Term) : t.isSame t = true := by simp [isSame]

theorem alike_refl (t : Term) : t.alike t = true := by
  induction t with
  | var _ v => simp [alike]
  | lam _ v b ih => simp [alike, ih]
  | app _ f a hf ha => simp [alike, hf, ha]

end Term

end LambdaCalc
