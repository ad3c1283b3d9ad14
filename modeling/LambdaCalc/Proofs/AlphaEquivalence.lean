import LambdaCalc.Proofs.Naming
import LambdaCalc.Proofs.Nameless

namespace LambdaCalc

namespace Nameless

/-- Tells free variables apart by their names alone. -/
def byName : Nameless → Nameless
  | index i => index i
  | free name _ => free name 0
  | lam body => lam body.byName
  | app fn arg => app fn.byName arg.byName

/-- An occurrence inside `n` lambdas that belongs to the one at position `i`, the innermost one
first. It is free if there is no such lambda. -/
def occurrence (n i : Nat) (name : String) : Nameless :=
  if i < n then index i else free name 0

theorem occurrence_inj {n i j : Nat} {name : String} (hi : i ≤ n) (hj : j ≤ n) :
    occurrence n i name = occurrence n j name ↔ i = j := by
  unfold occurrence
  split <;> split <;> simp <;> omega

end Nameless

theorem find?_eq_getElem?_idxOf {α : Type} [BEq α] (f : Variable → α) (scope : List Variable)
    (a : α) : scope.find? (fun v => f v == a) = scope[(scope.map f).idxOf a]? := by
  rw [List.find?_eq_getElem?_findIdx, List.idxOf, List.findIdx_map]
  rfl

/-- Names lead an occurrence to its lambda if they lead to the position of its identity. -/
theorem Occurrence.faithful_iff (o : Occurrence) (h : (o.scope.map Variable.id).Nodup) :
    o.Faithful ↔
      (o.scope.map Variable.name).idxOf o.var.name = (o.scope.map Variable.id).idxOf o.var.id := by
  have hnames : (o.scope.map Variable.name).idxOf o.var.name ≤ o.scope.length := by
    simpa using List.idxOf_le_length (l := o.scope.map Variable.name) (a := o.var.name)
  have hids : (o.scope.map Variable.id).idxOf o.var.id ≤ o.scope.length := by
    simpa using List.idxOf_le_length (l := o.scope.map Variable.id) (a := o.var.id)
  rw [Faithful, find?_eq_getElem?_idxOf Variable.name, find?_eq_getElem?_idxOf Variable.id]
  constructor
  · intro he
    rcases Nat.lt_or_eq_of_le hnames with hlt | hlen
    · exact (List.getElem?_inj hlt (h.of_map _)).mp he
    · rw [hlen, List.getElem?_eq_none (Nat.le_refl _), eq_comm, List.getElem?_eq_none_iff] at he
      omega
  · intro he
    rw [he]

namespace Term

/-- Two terms differ in the names of bound variables and in identities only. -/
def AlphaEq (t u : Term) : Prop := t.nameless.byName = u.nameless.byName

instance (t u : Term) : Decidable (t.AlphaEq u) :=
  inferInstanceAs (Decidable (t.nameless.byName = u.nameless.byName))

theorem byName_namelessIn_var (n : Nat) (v : Variable) (scope : List Nat) :
    ((var n v).namelessIn scope).byName =
      Nameless.occurrence scope.length (scope.idxOf v.id) v.name := by
  simp only [namelessIn, Nameless.occurrence, List.idxOf_lt_length_iff]
  split <;> rfl

end Term

end LambdaCalc
