import LambdaCalc.Proofs.Scope

namespace LambdaCalc

/-- Looked up by its name, an occurrence finds the lambda that it finds by its identity: the
innermost lambda of its name is its own, and there is none if it is free. -/
def Occurrence.Faithful (o : Occurrence) : Prop :=
  o.scope.find? (·.name == o.var.name) = o.scope.find? (·.id == o.var.id)

instance (o : Occurrence) : Decidable o.Faithful := inferInstanceAs (Decidable (_ = _))

/-- The variable of the lambda `head` takes another name, and all others stay. -/
def Variable.withName (v head : Variable) (new : String) : Variable :=
  if v.id = head.id then v.renamed new else v

namespace Variable

variable {head v : Variable} {new : String}

@[simp] theorem id_withName (v head : Variable) (new : String) :
    (v.withName head new).id = v.id := by
  unfold withName
  split <;> rfl

@[simp] theorem bound_withName (v head : Variable) (new : String) :
    (v.withName head new).bound = v.bound := by
  unfold withName
  split <;> rfl

theorem withName_of_ne (h : v.id ≠ head.id) : v.withName head new = v := if_neg h

theorem withName_of_eq (h : v.id = head.id) : v.withName head new = v.renamed new := if_pos h

theorem map_withName_of_notMem {scope : List Variable} (h : head.id ∉ scope.map Variable.id) :
    scope.map (·.withName head new) = scope := by
  have hall : ∀ v ∈ scope, v.withName head new = v := by
    intro v hv
    apply withName_of_ne
    intro he
    exact h (he ▸ List.mem_map_of_mem hv)
  simpa using List.map_congr_left hall

end Variable

namespace Term

/-- All occurrences are faithful, in a term that stands inside the lambdas with the heads
`scope`. -/
def FaithfulIn (scope : List Variable) (t : Term) : Prop :=
  ∀ o ∈ t.occurrences scope, o.Faithful

instance (scope : List Variable) (t : Term) : Decidable (t.FaithfulIn scope) :=
  inferInstanceAs (Decidable (∀ o ∈ t.occurrences scope, o.Faithful))

def NameFaithful (t : Term) : Prop := t.FaithfulIn []

instance (t : Term) : Decidable t.NameFaithful := inferInstanceAs (Decidable (t.FaithfulIn []))

/-- The lambda `head` takes another name, in its head and at all its occurrences. -/
def withName (head : Variable) (new : String) : Term → Term
  | var n v => var n (v.withName head new)
  | lam n v body => lam n (v.withName head new) (body.withName head new)
  | app n fn arg => app n (fn.withName head new) (arg.withName head new)

variable {head : Variable} {new : String} {scope : List Variable}

theorem heads_withName (t : Term) :
    (t.withName head new).heads = t.heads.map (·.withName head new) := by
  induction t with
  | var _ _ => rfl
  | lam _ v body ih => simp [withName, heads, ih]
  | app _ fn arg hf ha => simp [withName, heads, hf, ha]

theorem occurrences_withName (t : Term) (scope : List Variable) :
    (t.withName head new).occurrences (scope.map (·.withName head new)) =
      (t.occurrences scope).map fun o =>
        ⟨o.var.withName head new, o.scope.map (·.withName head new)⟩ := by
  induction t generalizing scope with
  | var _ v => rfl
  | lam _ v body ih => exact ih (v :: scope)
  | app _ fn arg hf ha => simp [withName, occurrences, hf, ha]

theorem withName_of_notMem {t : Term} (hh : head.id ∉ t.heads.map Variable.id)
    (hv : head.id ∉ t.vars.map Variable.id) : t.withName head new = t := by
  induction t with
  | var n v =>
    have hne : v.id ≠ head.id := by simpa [vars, eq_comm] using hv
    simp [withName, Variable.withName_of_ne hne]
  | lam n v body ih =>
    simp only [heads, List.map_cons, List.mem_cons, not_or] at hh
    have hne : v.id ≠ head.id := fun he => hh.1 he.symm
    simp [withName, Variable.withName_of_ne hne, ih hh.2 hv]
  | app n fn arg hf ha =>
    simp only [heads, vars, List.map_append, List.mem_append, not_or] at hh hv
    simp [withName, hf hh.1 hv.1, ha hh.2 hv.2]

/-- Lambdas further out only add to the scopes of the occurrences. -/
theorem occurrences_append (t : Term) (inner outer : List Variable) :
    t.occurrences (inner ++ outer) =
      (t.occurrences inner).map fun o => ⟨o.var, o.scope ++ outer⟩ := by
  induction t generalizing inner with
  | var _ v => rfl
  | lam _ head body ih => exact ih (head :: inner)
  | app _ fn arg hf ha => simp [occurrences, hf, ha]

theorem faithfulIn_app (n : Nat) (f a : Term) :
    (app n f a).FaithfulIn scope ↔ f.FaithfulIn scope ∧ a.FaithfulIn scope := by
  simp only [FaithfulIn, occurrences, List.mem_append, or_imp, forall_and]

/-- A name is as good as another for a term to be well scoped. -/
theorem WellScoped.withName {bound : Nat} {t : Term} (h : t.WellScoped bound) (head : Variable)
    (new : String) : (t.withName head new).WellScoped bound := by
  have hids (l : List Variable) :
      (l.map (·.withName head new)).map Variable.id = l.map Variable.id := by
    simp [List.map_map, Function.comp_def]
  have hocc : (t.withName head new).occurrences [] = (t.occurrences []).map fun o =>
      ⟨o.var.withName head new, o.scope.map (·.withName head new)⟩ :=
    occurrences_withName t []
  constructor
  · rw [heads_withName, hids]
    exact h.heads_distinct
  · rw [hocc, List.forall_mem_map]
    intro o ho
    rw [hids, Variable.bound_withName, Variable.id_withName]
    exact h.bound_iff o ho
  · rw [hocc, List.forall_mem_map]
    intro o ho
    rw [List.forall_mem_map]
    intro x hx hid
    have hid : x.id = o.var.id := by simpa using hid
    have hname := h.name_of_head o ho x hx hid
    by_cases he : o.var.id = head.id
    · rw [Variable.withName_of_eq he, Variable.withName_of_eq (hid.trans he)]
      rfl
    · rw [Variable.withName_of_ne he, Variable.withName_of_ne (hid ▸ he)]
      exact hname
  · rw [hocc, List.forall_mem_map, heads_withName, hids]
    intro o ho
    rw [Variable.bound_withName, Variable.id_withName]
    exact h.free_apart o ho
  · rw [heads_withName, List.forall_mem_map]
    intro x hx
    rw [Variable.id_withName]
    exact h.heads_below x hx
  · rw [hocc, List.forall_mem_map]
    intro o ho
    rw [Variable.id_withName]
    exact h.occurrences_below o ho

end Term

end LambdaCalc
