import LambdaCalc.Term.Basic
import Mathlib.Data.List.Nodup

namespace LambdaCalc

/-- An occurrence of a variable, with the heads of the lambdas around it, the innermost first. -/
structure Occurrence where
  var : Variable
  scope : List Variable
  deriving DecidableEq

namespace Term

/-- The heads of all lambdas, an outer one before an inner one and those of a function before
those of its argument. -/
def heads : Term → List Variable
  | var _ _ => []
  | lam _ head body => head :: body.heads
  | app _ fn arg => fn.heads ++ arg.heads

/-- The occurrences of variables from left to right, in a term that stands inside the lambdas with
the heads `scope`. -/
def occurrences (scope : List Variable) : Term → List Occurrence
  | var _ v => [⟨v, scope⟩]
  | lam _ head body => body.occurrences (head :: scope)
  | app _ fn arg => fn.occurrences scope ++ arg.occurrences scope

/-- No two lambdas share an identity. An occurrence is flagged as bound exactly when its identity
is that of a lambda around it, and then it has the name of that lambda's head. A free occurrence
has the identity of no lambda at all. All identities were drawn from a supply that is at `bound`. -/
structure WellScoped (bound : Nat) (t : Term) : Prop where
  heads_distinct : (t.heads.map Variable.id).Nodup
  bound_iff : ∀ o ∈ t.occurrences [],
    o.var.bound = true ↔ o.var.id ∈ o.scope.map Variable.id
  name_of_head : ∀ o ∈ t.occurrences [], ∀ head ∈ o.scope,
    head.id = o.var.id → head.name = o.var.name
  free_apart : ∀ o ∈ t.occurrences [],
    o.var.bound = false → o.var.id ∉ t.heads.map Variable.id
  heads_below : ∀ head ∈ t.heads, head.id < bound
  occurrences_below : ∀ o ∈ t.occurrences [], o.var.id < bound

/-- All lambda heads are flagged as bound, as they are when they are drawn. -/
def Flagged (t : Term) : Prop := ∀ head ∈ t.heads, head.bound = true

instance (t : Term) : Decidable t.Flagged := 
  inferInstanceAs (Decidable (∀ head ∈ t.heads, head.bound = true))

theorem flagged_lam (n : Nat) (head : Variable) (b : Term) :
    (lam n head b).Flagged ↔ head.bound = true ∧ b.Flagged := by
  simp only [Flagged, heads, List.mem_cons, forall_eq_or_imp]

theorem flagged_app (n : Nat) (f a : Term) : (app n f a).Flagged ↔ f.Flagged ∧ a.Flagged := by
  simp only [Flagged, heads, List.mem_append, or_imp, forall_and]

/-- The variables that occur, without the heads. -/
def vars : Term → List Variable
  | var _ v => [v]
  | lam _ _ body => body.vars
  | app _ fn arg => fn.vars ++ arg.vars

/-- Every occurrence that is flagged as bound has a head of its identity and name around it. -/
def Resolved (scope : List Variable) : Term → Prop
  | var _ v => v.bound = true → ∃ head ∈ scope, head.id = v.id ∧ head.name = v.name
  | lam _ head body => body.Resolved (head :: scope)
  | app _ fn arg => fn.Resolved scope ∧ arg.Resolved scope

/-- A term is well scoped inside the lambdas with the heads `scope`. Unlike `WellScoped` this
passes from a term to its parts. -/
structure ScopedIn (scope : List Variable) (bound : Nat) (t : Term) : Prop where
  distinct : ((scope ++ t.heads).map Variable.id).Nodup
  resolved : t.Resolved scope
  apart : ∀ v ∈ t.vars, v.bound = false → v.id ∉ (scope ++ t.heads).map Variable.id
  heads_below : ∀ head ∈ scope ++ t.heads, head.id < bound
  free_below : ∀ v ∈ t.vars, v.bound = false → v.id < bound

theorem vars_eq_map_occurrences (t : Term) (scope : List Variable) :
    t.vars = (t.occurrences scope).map Occurrence.var := by
  induction t generalizing scope with
  | var _ v => rfl
  | lam _ head body ih => exact ih (head :: scope)
  | app _ fn arg hf ha => simp only [vars, occurrences, List.map_append, ← hf scope, ← ha scope]

theorem mem_of_mem_scope {t : Term} {scope : List Variable} {o : Occurrence}
    (ho : o ∈ t.occurrences scope) {head : Variable} (hh : head ∈ o.scope) :
    head ∈ scope ++ t.heads := by
  induction t generalizing scope with
  | var _ v =>
    obtain rfl : o = ⟨v, scope⟩ := by simpa [occurrences] using ho
    simpa [heads] using hh
  | lam _ h body ih =>
    have hb := ih ho
    simp only [heads, List.mem_append, List.mem_cons] at hb ⊢
    tauto
  | app _ fn arg hf ha =>
    simp only [occurrences, List.mem_append, heads] at ho ⊢
    rcases ho with ho | ho
    · have hb := hf ho
      simp only [List.mem_append] at hb
      tauto
    · have hb := ha ho
      simp only [List.mem_append] at hb
      tauto

theorem resolved_iff (t : Term) (scope : List Variable) :
    t.Resolved scope ↔ ∀ o ∈ t.occurrences scope, o.var.bound = true →
      ∃ head ∈ o.scope, head.id = o.var.id ∧ head.name = o.var.name := by
  induction t generalizing scope with
  | var _ v => simp [Resolved, occurrences]
  | lam _ head body ih => exact ih (head :: scope)
  | app _ fn arg hf ha =>
    simp only [Resolved, occurrences, hf scope, ha scope, List.mem_append, or_imp, forall_and]

theorem Resolved.mono {t : Term} {scope scope' : List Variable} (h : t.Resolved scope)
    (hs : ∀ head ∈ scope, head ∈ scope') : t.Resolved scope' := by
  induction t generalizing scope scope' with
  | var _ v =>
    intro hb
    obtain ⟨head, hm, he⟩ := h hb
    exact ⟨head, hs head hm, he⟩
  | lam _ head body ih =>
    apply ih h
    intro x hx
    rcases List.mem_cons.mp hx with rfl | hx
    · exact List.mem_cons_self
    · exact List.mem_cons_of_mem _ (hs x hx)
  | app _ fn arg hf ha => exact ⟨hf h.1 hs, ha h.2 hs⟩

theorem Resolved.id_mem {t : Term} {scope : List Variable} (h : t.Resolved scope) {v : Variable}
    (hv : v ∈ t.vars) (hb : v.bound = true) : v.id ∈ (scope ++ t.heads).map Variable.id := by
  rw [vars_eq_map_occurrences t scope] at hv
  obtain ⟨o, ho, rfl⟩ := List.mem_map.mp hv
  obtain ⟨head, hh, hid, _⟩ := (resolved_iff t scope).mp h o ho hb
  exact List.mem_map.mpr ⟨head, mem_of_mem_scope ho hh, hid⟩

namespace ScopedIn

variable {scope : List Variable} {bound node : Nat} {head : Variable} {t b f a : Term}

theorem vars_below (h : t.ScopedIn scope bound) : ∀ v ∈ t.vars, v.id < bound := by
  intro v hv
  cases hb : v.bound with
  | false => exact h.free_below v hv hb
  | true =>
    obtain ⟨head, hh, hid⟩ := List.mem_map.mp (h.resolved.id_mem hv hb)
    exact hid ▸ h.heads_below head hh

theorem mono {bound' : Nat} (h : t.ScopedIn scope bound) (hb : bound ≤ bound') :
    t.ScopedIn scope bound' :=
  ⟨h.distinct, h.resolved, h.apart, fun x hx => Nat.lt_of_lt_of_le (h.heads_below x hx) hb,
    fun v hv hf => Nat.lt_of_lt_of_le (h.free_below v hv hf) hb⟩

theorem body (h : (lam node head b).ScopedIn scope bound) :
    b.ScopedIn (head :: scope) bound := by
  have hmem (x : Variable) : x ∈ head :: scope ++ b.heads ↔ x ∈ scope ++ head :: b.heads := by
    simp only [List.cons_append, List.mem_cons, List.mem_append]
    tauto
  refine ⟨?_, h.resolved, ?_, ?_, h.free_below⟩
  · have hd := h.distinct
    simp only [heads, List.map_append, List.map_cons] at hd ⊢
    exact List.nodup_middle.mp hd
  · intro v hv hf hi
    apply h.apart v hv hf
    obtain ⟨x, hx, he⟩ := List.mem_map.mp hi
    exact List.mem_map.mpr ⟨x, (hmem x).mp hx, he⟩
  · intro x hx
    exact h.heads_below x ((hmem x).mp hx)

/-- No lambda has the identity of one that stands around it. -/
theorem head_notMem (h : b.ScopedIn (head :: scope) bound) :
    head.id ∉ b.heads.map Variable.id := by
  have hd := h.distinct
  simp only [List.cons_append, List.map_cons, List.map_append, List.nodup_cons,
    List.mem_append, not_or] at hd
  exact hd.1.2

theorem fn (h : (app node f a).ScopedIn scope bound) : f.ScopedIn scope bound := by
  have hsub : (scope ++ f.heads).Sublist (scope ++ (app node f a).heads) :=
    (List.sublist_append_left f.heads a.heads).append_left scope
  refine ⟨h.distinct.sublist (hsub.map _), h.resolved.1, ?_, ?_, ?_⟩
  · intro v hv hf hi
    exact h.apart v (List.mem_append_left _ hv) hf ((hsub.map _).subset hi)
  · intro x hx
    exact h.heads_below x (hsub.subset hx)
  · intro v hv
    exact h.free_below v (List.mem_append_left _ hv)

theorem arg (h : (app node f a).ScopedIn scope bound) : a.ScopedIn scope bound := by
  have hsub : (scope ++ a.heads).Sublist (scope ++ (app node f a).heads) :=
    (List.sublist_append_right f.heads a.heads).append_left scope
  refine ⟨h.distinct.sublist (hsub.map _), h.resolved.2, ?_, ?_, ?_⟩
  · intro v hv hf hi
    exact h.apart v (List.mem_append_right _ hv) hf ((hsub.map _).subset hi)
  · intro x hx
    exact h.heads_below x (hsub.subset hx)
  · intro v hv
    exact h.free_below v (List.mem_append_right _ hv)

theorem bound_iff (h : t.ScopedIn scope bound) {o : Occurrence} (ho : o ∈ t.occurrences scope) :
    o.var.bound = true ↔ o.var.id ∈ o.scope.map Variable.id := by
  constructor
  · intro hb
    obtain ⟨head, hh, hid, _⟩ := (resolved_iff t scope).mp h.resolved o ho hb
    exact List.mem_map.mpr ⟨head, hh, hid⟩
  · intro hm
    obtain ⟨head, hh, hid⟩ := List.mem_map.mp hm
    have hv : o.var ∈ t.vars := by
      rw [vars_eq_map_occurrences t scope]
      exact List.mem_map_of_mem ho
    by_contra hb
    apply h.apart o.var hv (by simpa using hb)
    exact List.mem_map.mpr ⟨head, mem_of_mem_scope ho hh, hid⟩

theorem name_of_head (h : t.ScopedIn scope bound) {o : Occurrence} (ho : o ∈ t.occurrences scope)
    (hh : head ∈ o.scope) (hid : head.id = o.var.id) : head.name = o.var.name := by
  have hb := (h.bound_iff ho).mpr (List.mem_map.mpr ⟨head, hh, hid⟩)
  obtain ⟨x, hx, hxid, hname⟩ := (resolved_iff t scope).mp h.resolved o ho hb
  have he : head = x := List.inj_on_of_nodup_map h.distinct (mem_of_mem_scope ho hh)
    (mem_of_mem_scope ho hx) (hid.trans hxid.symm)
  exact he ▸ hname

/-- The lambdas around an occurrence are told apart by their identities. -/
theorem scope_distinct (h : t.ScopedIn scope bound) {o : Occurrence}
    (ho : o ∈ t.occurrences scope) : (o.scope.map Variable.id).Nodup := by
  induction t generalizing scope with
  | var _ v =>
    obtain rfl : o = ⟨v, scope⟩ := by simpa [occurrences] using ho
    have hd := h.distinct
    rw [List.map_append] at hd
    exact (List.nodup_append.mp hd).1
  | lam _ head body ih => exact ih h.body ho
  | app _ fn arg hf ha =>
    rcases List.mem_append.mp ho with ho | ho
    · exact hf h.fn ho
    · exact ha h.arg ho

end ScopedIn

/-- Outside of all lambdas the two notions agree. -/
theorem wellScoped_iff (bound : Nat) (t : Term) : t.WellScoped bound ↔ t.ScopedIn [] bound := by
  have hvars (v : Variable) : v ∈ t.vars ↔ ∃ o ∈ t.occurrences [], o.var = v := by
    rw [vars_eq_map_occurrences t [], List.mem_map]
  constructor
  · intro h
    refine ⟨h.heads_distinct, (resolved_iff t []).mpr ?_, ?_, h.heads_below, ?_⟩
    · intro o ho hb
      obtain ⟨head, hh, hid⟩ := List.mem_map.mp ((h.bound_iff o ho).mp hb)
      exact ⟨head, hh, hid, h.name_of_head o ho head hh hid⟩
    · intro v hv hf
      obtain ⟨o, ho, rfl⟩ := (hvars v).mp hv
      exact h.free_apart o ho hf
    · intro v hv _
      obtain ⟨o, ho, rfl⟩ := (hvars v).mp hv
      exact h.occurrences_below o ho
  · intro h
    have hin (o : Occurrence) (ho : o ∈ t.occurrences []) : o.var ∈ t.vars :=
      (hvars _).mpr ⟨o, ho, rfl⟩
    refine ⟨h.distinct, fun o ho => h.bound_iff ho,
      fun o ho head hh hid => h.name_of_head ho hh hid, ?_, h.heads_below, ?_⟩
    · intro o ho
      exact h.apart o.var (hin o ho)
    · intro o ho
      exact h.vars_below o.var (hin o ho)

end Term

end LambdaCalc
