import LambdaCalc.Term.Basic

namespace LambdaCalc

/-- The variable `index i` belongs to the lambda that has `i` other lambdas between itself and the
occurrence. A free variable is told apart by its name and its identity. -/
inductive Nameless
  | index (i : Nat)
  | free (name : String) (id : Nat)
  | lam (body : Nameless)
  | app (fn arg : Nameless)
  deriving DecidableEq

namespace Nameless

/-- Makes room for `n` lambdas around a term. The innermost `depth` lambdas are its own, so their
variables stay. -/
def lift (n depth : Nat) : Nameless → Nameless
  | index i => index (if i < depth then i else i + n)
  | free name id => free name id
  | lam body => lam (body.lift n (depth + 1))
  | app fn arg => app (fn.lift n depth) (arg.lift n depth)

/-- Puts `arg` in the place of the variable of a lambda that goes away. There are `depth` lambdas
between that lambda and the term. -/
def subst : Nameless → Nameless → Nat → Nameless
  | index i, arg, depth =>
    if i < depth then index i
    else if i = depth then arg.lift depth 0
    else index (i - 1)
  | free name id, _, _ => free name id
  | lam body, arg, depth => lam (body.subst arg (depth + 1))
  | app fn a, arg, depth => app (fn.subst arg depth) (a.subst arg depth)

def isLam : Nameless → Bool
  | lam _ => true
  | _ => false

/-- Whether some application has a lambda as its function. -/
def hasRedex : Nameless → Bool
  | index _ => false
  | free _ _ => false
  | lam body => body.hasRedex
  | app fn arg => fn.isLam || fn.hasRedex || arg.hasRedex

/-- One step in normal order: of all redexes the leftmost outermost one is contracted. The function
of an application is searched before its argument, and a redex before what is inside it. -/
inductive NormalStep : Nameless → Nameless → Prop
  | contract (body arg : Nameless) : NormalStep (app (lam body) arg) (body.subst arg 0)
  | lam {body body' : Nameless} : NormalStep body body' → NormalStep (lam body) (lam body')
  | fn {f f' : Nameless} (arg : Nameless) :
      f.isLam = false → NormalStep f f' → NormalStep (app f arg) (app f' arg)
  | arg {f a a' : Nameless} :
      f.isLam = false → f.hasRedex = false → NormalStep a a' → NormalStep (app f a) (app f a')

/-- Only a term with a redex can take a step. -/
theorem NormalStep.hasRedex_eq_true {t u : Nameless} (h : NormalStep t u) : t.hasRedex = true := by
  induction h with
  | contract body arg => simp [hasRedex, isLam]
  | lam _ ih => exact ih
  | fn arg _ _ ih => simp [hasRedex, ih]
  | arg _ _ _ ih => simp [hasRedex, ih]

/-- There is one leftmost outermost redex at most. -/
theorem NormalStep.unique {t u v : Nameless} (hu : NormalStep t u) (hv : NormalStep t v) :
    u = v := by
  induction hu generalizing v with
  | contract body arg =>
    cases hv with
    | contract => rfl
    | fn _ hf _ => simp [isLam] at hf
    | arg hf _ _ => simp [isLam] at hf
  | lam _ ih =>
    cases hv with
    | lam hb => exact congrArg Nameless.lam (ih hb)
  | @fn f f' arg hf hs ih =>
    cases hv with
    | contract => simp [isLam] at hf
    | fn _ _ hf' => exact congrArg (Nameless.app · arg) (ih hf')
    | arg _ hn _ =>
      have hr := hs.hasRedex_eq_true
      simp [hn] at hr
  | @arg f a a' hf hn _ ih =>
    cases hv with
    | contract => simp [isLam] at hf
    | fn _ _ hs =>
      have hr := hs.hasRedex_eq_true
      simp [hn] at hr
    | arg _ _ ha => exact congrArg (Nameless.app f) (ih ha)

end Nameless

namespace Term

def isLam : Term → Bool
  | lam _ _ _ => true
  | _ => false

/-- Whether some application has a lambda as its function. -/
def hasRedex : Term → Bool
  | var _ _ => false
  | lam _ _ body => body.hasRedex
  | app _ fn arg => fn.isLam || fn.hasRedex || arg.hasRedex

/-- Reads a term inside the lambdas whose heads have the identities `scope`, the innermost one
first. -/
def namelessIn (scope : List Nat) : Term → Nameless
  | var _ v => if v.id ∈ scope then .index (scope.idxOf v.id) else .free v.name v.id
  | lam _ head body => .lam (body.namelessIn (head.id :: scope))
  | app _ fn arg => .app (fn.namelessIn scope) (arg.namelessIn scope)

def nameless (t : Term) : Nameless := t.namelessIn []

theorem isLam_namelessIn (scope : List Nat) (t : Term) :
    (t.namelessIn scope).isLam = t.isLam := by
  cases t with
  | var _ v =>
    simp only [namelessIn]
    split <;> rfl
  | lam _ _ _ => rfl
  | app _ _ _ => rfl

theorem hasRedex_namelessIn (scope : List Nat) (t : Term) :
    (t.namelessIn scope).hasRedex = t.hasRedex := by
  induction t generalizing scope with
  | var _ v =>
    simp only [namelessIn]
    split <;> rfl
  | lam _ head body ih => exact ih (head.id :: scope)
  | app _ fn arg hf ha =>
    simp only [namelessIn, Nameless.hasRedex, hasRedex, isLam_namelessIn, hf, ha]

end Term

end LambdaCalc
