import LambdaCalc.Proofs.NormalOrder
import LambdaCalc.Proofs.Renumbering
import LambdaCalc.Proofs.RoundTrip

namespace LambdaCalc

/-- The way from a node to one of its parts. -/
inductive Branch
  | body
  | fn
  | arg
  deriving DecidableEq

namespace Term

/-- The part of a term to which a path leads. -/
def at? : List Branch → Term → Option Term
  | [], t => some t
  | .body :: path, lam _ _ body => body.at? path
  | .fn :: path, app _ fn _ => fn.at? path
  | .arg :: path, app _ _ arg => arg.at? path
  | _ :: _, _ => none

/-- The identities of all heads and occurrences. -/
def ids (t : Term) : List Nat := (t.heads ++ t.vars).map Variable.id

/-- The identities of the heads and occurrences that are not in the part to which a path leads. -/
def idsOutside : List Branch → Term → List Nat
  | .body :: path, lam _ head body => head.id :: body.idsOutside path
  | .fn :: path, app _ fn arg => fn.idsOutside path ++ arg.ids
  | .arg :: path, app _ fn arg => fn.ids ++ arg.idsOutside path
  | _, _ => []

/-- No occurrence is free. -/
def Closed (t : Term) : Prop := ∀ v ∈ t.vars, v.bound = true

instance (t : Term) : Decidable t.Closed :=
  inferInstanceAs (Decidable (∀ v ∈ t.vars, v.bound = true))

variable {t t' u : Term} {path : List Branch} {scope : List Variable} {bound n : Nat} {v : Variable}

theorem heads_of_at? (h : t.at? path = some u) : ∀ head ∈ u.heads, head ∈ t.heads := by
  induction path generalizing t with
  | nil =>
    cases h
    exact fun _ hh => hh
  | cons branch path ih =>
    intro head hh
    cases branch <;> cases t <;> simp only [at?, reduceCtorEq] at h
    · exact List.mem_cons_of_mem _ (ih h head hh)
    · exact List.mem_append_left _ (ih h head hh)
    · exact List.mem_append_right _ (ih h head hh)

/-- An identity in a term is that of a lambda of the term or around it, or of a free occurrence. -/
theorem ScopedIn.mem_ids (h : t.ScopedIn scope bound) {i : Nat} (hi : i ∈ t.ids) :
    i ∈ scope.map Variable.id ∨ i ∈ t.heads.map Variable.id ∨
      ∃ v ∈ t.vars, v.bound = false ∧ v.id = i := by
  rw [ids, List.map_append, List.mem_append] at hi
  rcases hi with hi | hi
  · exact .inr (.inl hi)
  · obtain ⟨v, hv, rfl⟩ := List.mem_map.mp hi
    cases hb : v.bound with
    | false => exact .inr (.inr ⟨v, hv, hb, rfl⟩)
    | true =>
      have hmem := h.resolved.id_mem hv hb
      rw [List.map_append, List.mem_append] at hmem
      exact hmem.imp_right .inl

/-- Every head in one of two parts has an identity that does not occur in the other one. -/
theorem ScopedIn.head_notMem_ids {f a : Term} (h : (app n f a).ScopedIn scope bound) :
    (∀ head ∈ f.heads, head.id ∉ a.ids) ∧ ∀ head ∈ a.heads, head.id ∉ f.ids := by
  have hd := h.distinct
  have hapart := h.apart
  simp only [heads, vars, List.map_append, List.nodup_append, List.mem_append] at hd hapart
  obtain ⟨-, ⟨-, -, hfa⟩, hscope⟩ := hd
  constructor
  · intro head hh hi
    have hid : head.id ∈ f.heads.map Variable.id := List.mem_map_of_mem hh
    rcases h.arg.mem_ids hi with hs | ha | ⟨v, hv, hb, hvid⟩
    · exact hscope _ hs _ (.inl hid) rfl
    · exact hfa _ hid _ ha rfl
    · exact hapart v (.inr hv) hb (hvid ▸ .inr (.inl hid))
  · intro head hh hi
    have hid : head.id ∈ a.heads.map Variable.id := List.mem_map_of_mem hh
    rcases h.fn.mem_ids hi with hs | hf | ⟨v, hv, hb, hvid⟩
    · exact hscope _ hs _ (.inr hid) rfl
    · exact hfa _ hf _ hid rfl
    · exact hapart v (.inl hv) hb (hvid ▸ .inr (.inr hid))

/-- The heads of a part of a well-scoped term have identities that occur nowhere else in it. -/
theorem ScopedIn.head_notMem_idsOutside (h : t.ScopedIn scope bound) (hu : t.at? path = some u) :
    ∀ head ∈ u.heads, head.id ∉ t.idsOutside path := by
  induction path generalizing t scope with
  | nil => simp [idsOutside]
  | cons branch path ih =>
    intro head hh
    cases branch <;> cases t <;> simp only [at?, reduceCtorEq] at hu
    · have hne := h.body.head_notMem
      simp only [idsOutside, List.mem_cons, not_or]
      refine ⟨fun he => hne ?_, ih h.body hu head hh⟩
      exact he ▸ List.mem_map_of_mem (heads_of_at? hu head hh)
    · simp only [idsOutside, List.mem_append, not_or]
      exact ⟨ih h.fn hu head hh, h.head_notMem_ids.1 head (heads_of_at? hu head hh)⟩
    · simp only [idsOutside, List.mem_append, not_or]
      exact ⟨h.head_notMem_ids.2 head (heads_of_at? hu head hh), ih h.arg hu head hh⟩

theorem Copied.at?_of_free {renewed : List (Nat × Variable)} {c d : Nat}
    (h : Copied renewed c d t t') (hv : t.at? path = some (var n v))
    (hr : renewed.lookup v.id = none) (hh : v.id ∉ t.heads.map Variable.id) :
    t'.at? path = some (var n v) := by
  induction h generalizing path with
  | renewed hl =>
    cases path with
    | nil =>
      cases hv
      rw [hr] at hl
      cases hl
    | cons branch path => cases branch <;> cases hv
  | kept _ => exact hv
  | @lam renewed c d k m head b b' _ ih =>
    cases path with
    | nil => cases hv
    | cons branch path =>
      cases branch <;> simp only [at?, reduceCtorEq] at hv ⊢
      simp only [heads, List.map_cons, List.mem_cons, not_or] at hh
      refine ih hv ?_ hh.2
      rw [List.lookup_cons, beq_eq_false_iff_ne.mpr hh.1]
      exact hr
  | app _ _ hf ha =>
    cases path with
    | nil => cases hv
    | cons branch path =>
      simp only [heads, List.map_append, List.mem_append, not_or] at hh
      cases branch <;> simp only [at?, reduceCtorEq] at hv ⊢
      · exact hf hv hr hh.1
      · exact ha hv hr hh.2

/-- A copy is written as the copied term, as every occurrence has the name of its lambda. -/
theorem Copied.phrase_eq {renewed : List (Nat × Variable)} {c d : Nat}
    (h : Copied renewed c d t t') (ht : t.ScopedIn scope bound)
    (hr : ∀ i fresh, renewed.lookup i = some fresh → ∃ head ∈ scope, head.id = i ∧
      head.name = fresh.name) : t'.phrase = t.phrase := by
  induction h generalizing scope with
  | @renewed renewed c n m v fresh hl =>
    obtain ⟨head, hh, hid, hname⟩ := hr _ _ hl
    have ho : ⟨v, scope⟩ ∈ (var n v).occurrences scope := List.mem_singleton_self _
    have hv : head.name = v.name := ht.name_of_head ho hh hid
    simp [phrase, ← hname, hv]
  | kept _ => rfl
  | @lam renewed c d n m head b b' _ ih =>
    have hbody : b'.phrase = b.phrase := by
      refine ih ht.body fun i fresh hl => ?_
      rw [List.lookup_cons] at hl
      split at hl
      · next he =>
        cases hl
        exact ⟨head, List.mem_cons_self, (beq_iff_eq.mp he).symm, rfl⟩
      · obtain ⟨x, hx, hid, hname⟩ := hr i fresh hl
        exact ⟨x, List.mem_cons_of_mem _ hx, hid, hname⟩
    simp [phrase, hbody]
  | app _ _ hf ha => simp [phrase, hf ht.fn hr, ha ht.arg hr]

namespace Renumbered

variable {σ : Nat → Nat}

theorem phrase_eq (h : Renumbered σ t u) : u.phrase = t.phrase := by
  induction h with
  | var _ _ _ => rfl
  | lam _ ih => simp [phrase, ih, Variable.mapId]
  | app _ _ hf ha => simp [phrase, hf, ha]

theorem at?_eq (h : Renumbered σ t u) (hv : t.at? path = some (.var n v)) :
    ∃ m, u.at? path = some (.var m (v.mapId σ)) := by
  induction h generalizing path with
  | var _ m _ =>
    cases path with
    | nil =>
      cases hv
      exact ⟨m, rfl⟩
    | cons branch path => cases branch <;> cases hv
  | lam _ ih =>
    cases path with
    | nil => cases hv
    | cons branch path =>
      cases branch <;> simp only [at?, reduceCtorEq] at hv ⊢
      exact ih hv
  | app _ _ hf ha =>
    cases path with
    | nil => cases hv
    | cons branch path =>
      cases branch <;> simp only [at?, reduceCtorEq] at hv ⊢
      · exact hf hv
      · exact ha hv

theorem closed_iff (h : Renumbered σ t u) : u.Closed ↔ t.Closed := by
  simp [Closed, h.vars_eq, Variable.mapId]

end Renumbered

theorem mem_vars_of_at? (h : t.at? path = some (var n v)) : v ∈ t.vars := by
  induction path generalizing t with
  | nil =>
    cases h
    exact List.mem_singleton_self v
  | cons branch path ih =>
    cases branch <;> cases t <;> simp only [at?, reduceCtorEq] at h
    · have hbody := ih h
      exact hbody
    · exact List.mem_append_left _ (ih h)
    · exact List.mem_append_right _ (ih h)

/-- Lambdas around a closed term do not change how it is read. -/
theorem Closed.namelessIn_append (h : t.Closed) (ht : t.Resolved scope) (outer : List Nat) :
    t.namelessIn (scope.map Variable.id ++ outer) = t.namelessIn (scope.map Variable.id) := by
  induction t generalizing scope with
  | var n v =>
    obtain ⟨head, hh, hid, -⟩ := ht (h v List.mem_cons_self)
    have hmem : v.id ∈ scope.map Variable.id := List.mem_map.mpr ⟨head, hh, hid⟩
    simp [namelessIn, hmem, List.idxOf_append_of_mem]
  | lam n head b ih => exact congrArg Nameless.lam (ih h ht)
  | app n f a hf ha =>
    have hf := hf (fun v hv => h v (List.mem_append_left _ hv)) ht.1
    have ha := ha (fun v hv => h v (List.mem_append_right _ hv)) ht.2
    simp only [namelessIn, hf, ha]

/-- Inside of any lambdas a closed name-faithful term stays faithful. -/
theorem Closed.faithfulIn (h : t.Closed) (ht : t.Resolved []) (hf : t.NameFaithful)
    (outer : List Variable) : t.FaithfulIn outer := by
  have happ := occurrences_append t [] outer
  rw [List.nil_append] at happ
  rw [FaithfulIn, happ, List.forall_mem_map]
  intro o ho
  have hv : o.var ∈ t.vars := by
    rw [vars_eq_map_occurrences t []]
    exact List.mem_map_of_mem ho
  obtain ⟨head, hh, hid, -⟩ := (resolved_iff t []).mp ht o ho (h o.var hv)
  have hsome : (o.scope.find? (·.id == o.var.id)).isSome := by
    rw [List.find?_isSome]
    exact ⟨head, hh, by simp [hid]⟩
  obtain ⟨own, hown⟩ := Option.isSome_iff_exists.mp hsome
  have hname : o.scope.find? (·.name == o.var.name) = some own := (hf o ho).trans hown
  simp [Occurrence.Faithful, List.find?_append, hname, hown]

end Term

end LambdaCalc
