import LambdaCalc.Proofs.Naming
import LambdaCalc.Proofs.Renaming

namespace LambdaCalc

/-- Renaming the lambda with the identity `id` to `new` would spoil the occurrence. Its scope holds
the lambdas inside the renamed one. -/
def Occurrence.clashes (id : Nat) (new : String) (o : Occurrence) : Bool :=
  if o.var.id = id then o.scope.any (·.name == new)
  else o.var.name == new && !o.scope.any (·.id == o.var.id)

namespace Occurrence

variable {v head : Variable} {inner outer : List Variable} {new : String}

/-- An occurrence of the renamed lambda must not come below an inner one of the new name. -/
theorem faithful_own_iff (hid : v.id = head.id) (hin : head.id ∉ inner.map Variable.id) :
    (⟨v.renamed new, inner ++ head.renamed new :: outer⟩ : Occurrence).Faithful ↔
      inner.any (·.name == new) = false := by
  have hbyId : (inner ++ head.renamed new :: outer).find? (·.id == (v.renamed new).id) =
      some (head.renamed new) := by
    have hnone : inner.find? (·.id == head.id) = none := by
      simpa [List.find?_eq_none] using hin
    simp [List.find?_append, Variable.renamed, hid, hnone]
  have hbyName : (inner ++ head.renamed new :: outer).find? (·.name == (v.renamed new).name) =
      (inner.find? (·.name == new)).or (some (head.renamed new)) := by
    simp [List.find?_append, Variable.renamed]
  rw [Faithful, hbyId, hbyName]
  cases hfind : inner.find? (·.name == new) with
  | none => simpa [List.find?_eq_none] using hfind
  | some x =>
    have hx : x ∈ inner := List.mem_of_find?_eq_some hfind
    have hname : x.name = new := by simpa using List.find?_some hfind
    have hany : inner.any (·.name == new) = true := by
      rw [List.any_eq_true]
      exact ⟨x, hx, by simp [hname]⟩
    have hne : x ≠ head.renamed new := by
      intro he
      have hxid : x.id = head.id := by simp [he, Variable.renamed]
      exact hin (hxid ▸ List.mem_map_of_mem hx)
    simp [hne, hany]

/-- Another occurrence of the new name must find its own lambda inside the renamed one. -/
theorem faithful_other_iff (hown : ∀ x ∈ inner, x.id = v.id → x.name = v.name)
    (hid : v.id ≠ head.id) (hf : (⟨v, inner ++ head :: outer⟩ : Occurrence).Faithful) :
    (⟨v, inner ++ head.renamed new :: outer⟩ : Occurrence).Faithful ↔
      (v.name == new && !inner.any (·.id == v.id)) = false := by
  have hidb : (head.id == v.id) = false := beq_eq_false_iff_ne.mpr (Ne.symm hid)
  have hbyId : (inner ++ head.renamed new :: outer).find? (·.id == v.id) =
      (inner ++ head :: outer).find? (·.id == v.id) := by
    simp [List.find?_append, Variable.renamed, hidb]
  -- what the name finds is the lambda of the occurrence
  have hfound (x : Variable) (hx : (inner ++ head :: outer).find? (·.name == v.name) = some x) :
      x.id = v.id := by
    have hx' : (inner ++ head :: outer).find? (·.id == v.id) = some x := hf.symm.trans hx
    simpa using List.find?_some hx'
  have hbyName : (inner ++ head :: outer).find? (·.name == v.name) =
      (inner ++ head :: outer).find? (·.id == v.id) := hf
  rw [Faithful, hbyId, ← hbyName]
  rw [List.find?_append] at hfound
  rw [List.find?_append, List.find?_append]
  cases hfind : inner.find? (·.name == v.name) with
  | some x =>
    have hxid : x.id = v.id := hfound x (by rw [hfind, Option.some_or])
    have hany : inner.any (·.id == v.id) = true := by
      rw [List.any_eq_true]
      exact ⟨x, List.mem_of_find?_eq_some hfind, by simp [hxid]⟩
    simp [hany]
  | none =>
    have hany : inner.any (·.id == v.id) = false := by
      rw [List.any_eq_false]
      intro x hx hxid
      have hname : x.name = v.name := hown x hx (by simpa using hxid)
      have hmiss := List.find?_eq_none.mp hfind x hx
      simp [hname] at hmiss
    have hhead : (head.name == v.name) = false := by
      by_contra hb
      apply hid
      have hb : (head.name == v.name) = true := by simpa using hb
      exact (hfound head (by rw [hfind, Option.none_or, List.find?_cons, hb])).symm
    rw [Option.none_or, Option.none_or, List.find?_cons, List.find?_cons, hhead]
    by_cases hnew : new = v.name
    · have hlost : some (head.renamed new) ≠ outer.find? (·.name == v.name) := by
        intro he
        apply hid
        refine (hfound (head.renamed new) ?_).symm
        rw [hfind, Option.none_or, List.find?_cons, hhead, he]
      simpa [Variable.renamed, hnew, hany] using hlost
    · have hmiss : ((head.renamed new).name == v.name) = false := by
        simpa [Variable.renamed] using hnew
      simp [hmiss, Ne.symm hnew]

/-- Renaming keeps an occurrence faithful unless it clashes. -/
theorem faithful_withName_iff (hd : ((inner ++ head :: outer).map Variable.id).Nodup)
    (hown : ∀ x ∈ inner, x.id = v.id → x.name = v.name)
    (hf : (⟨v, inner ++ head :: outer⟩ : Occurrence).Faithful) :
    (⟨v.withName head new, (inner ++ head :: outer).map (·.withName head new)⟩ :
      Occurrence).Faithful ↔ (⟨v, inner⟩ : Occurrence).clashes head.id new = false := by
  have hd' := hd
  simp only [List.map_append, List.map_cons, List.nodup_append, List.nodup_cons,
    List.mem_cons] at hd'
  obtain ⟨_, ⟨hout, _⟩, hapart⟩ := hd'
  have hin : head.id ∉ inner.map Variable.id := fun hm => hapart _ hm _ (.inl rfl) rfl
  have hmap : (inner ++ head :: outer).map (·.withName head new) =
      inner ++ head.renamed new :: outer := by
    rw [List.map_append, List.map_cons, Variable.map_withName_of_notMem hin,
      Variable.map_withName_of_notMem hout, Variable.withName_of_eq rfl]
  rw [hmap, clashes]
  by_cases hid : v.id = head.id
  · rw [Variable.withName_of_eq hid, faithful_own_iff hid hin]
    simp [hid]
  · rw [Variable.withName_of_ne hid, faithful_other_iff hown hid hf]
    simp [hid]

end Occurrence

namespace Term

variable {id : Nat} {old new : String} {scope : List Variable} {bound : Nat}

theorem clashes_eq_any (id : Nat) (new : String) (inner : List Variable) (t : Term) :
    clashes id new inner t = (t.occurrences inner).any (Occurrence.clashes id new) := by
  induction t generalizing inner with
  | var _ v => simp [clashes, occurrences, Occurrence.clashes]
  | lam _ head body ih => exact ih (head :: inner)
  | app _ fn arg hf ha => simp [clashes, occurrences, hf, ha]

/-- The test for clashes finds out whether the body stays faithful below the renamed lambda. -/
theorem faithfulIn_withName_iff {head : Variable} {b : Term} (new : String)
    (hb : b.ScopedIn (head :: scope) bound) (hf : b.FaithfulIn (head :: scope)) :
    (b.withName head new).FaithfulIn ((head :: scope).map (·.withName head new)) ↔
      clashes head.id new [] b = false := by
  have hocc : b.occurrences (head :: scope) =
      (b.occurrences []).map fun o => ⟨o.var, o.scope ++ head :: scope⟩ :=
    b.occurrences_append [] (head :: scope)
  have hiff (o : Occurrence) (ho : o ∈ b.occurrences []) :
      (⟨o.var.withName head new,
        (o.scope ++ head :: scope).map (·.withName head new)⟩ : Occurrence).Faithful ↔
        o.clashes head.id new = false := by
    have hmem : (⟨o.var, o.scope ++ head :: scope⟩ : Occurrence) ∈
        b.occurrences (head :: scope) := by
      rw [hocc]
      exact List.mem_map_of_mem ho
    apply Occurrence.faithful_withName_iff (hb.scope_distinct hmem)
    · intro x hx hid
      have hname := hb.name_of_head hmem (List.mem_append_left _ hx)
      exact hname hid
    · exact hf _ hmem
  rw [FaithfulIn, occurrences_withName, List.forall_mem_map, hocc, List.forall_mem_map,
    clashes_eq_any, List.any_eq_false]
  simp only [Bool.not_eq_true]
  exact forall₂_congr hiff

/-- Renaming the occurrences is what the substitution of the renamed head amounts to, since they
have its name and its flag. -/
theorem Grafted.alike_withName {head : Variable} {c d : Nat} {b b' : Term}
    (h : Grafted head.id (fun c d u => c = d ∧ ∃ k, u = var k (head.renamed new)) c d b b')
    (hhead : head.bound = true) (hn : head.id ∉ b.heads.map Variable.id)
    (hb : ∀ v ∈ b.vars, v.id = head.id → v.bound = true) :
    b'.alike (b.withName head new) = true := by
  induction h with
  | @hit c d n v u hbound hid hu =>
    obtain ⟨-, k, rfl⟩ := hu
    have he : v.renamed new = head.renamed new := by
      simp [Variable.renamed, hid, hbound, hhead]
    simp [withName, Variable.withName_of_eq hid, he, alike]
  | @miss c n v hm =>
    have hne : v.id ≠ head.id := fun he => hm ⟨hb v List.mem_cons_self he, he⟩
    simp [withName, Variable.withName_of_ne hne, alike]
  | shadow hi => exact absurd (hi ▸ List.mem_cons_self) hn
  | @lam c d n m x b b' hne _ ih =>
    have hbody := ih (fun hm => hn (List.mem_cons_of_mem _ hm)) hb
    simp [withName, Variable.withName_of_ne hne, alike, hbody]
  | app _ _ hf ha =>
    simp only [heads, List.map_append, List.mem_append, not_or] at hn
    have hfn := hf hn.1 fun v hv => hb v (List.mem_append_left _ hv)
    have harg := ha hn.2 fun v hv => hb v (List.mem_append_right _ hv)
    simp [withName, alike, hfn, harg]

theorem renameFirst?_of_forall_ne {t : Term} (s : Supply) (h : ∀ head ∈ t.heads, head.name ≠ old) :
    t.renameFirst? old new s = .ok none s := by
  induction t with
  | var n v => rfl
  | lam n head b ih =>
    have hname : head.name ≠ old := h head List.mem_cons_self
    have hb := ih fun x hx => h x (List.mem_cons_of_mem _ hx)
    rw [renameFirst?_lam new n b s hname, hb]
    rfl
  | app n f a hf ha =>
    have hfn := hf fun x hx => h x (List.mem_append_left _ hx)
    have harg := ha fun x hx => h x (List.mem_append_right _ hx)
    simp only [renameFirst?_app, hfn, harg]
    rfl

/-- A part of a term without the lambda `head`, neither in it nor around it, has no occurrence of
its variable. -/
theorem ScopedIn.withName_part {t part : Term} {head : Variable} (h : t.ScopedIn scope bound)
    (hh : head ∈ t.heads) (hpart : part.ScopedIn scope bound) (hvars : ∀ v ∈ part.vars, v ∈ t.vars)
    (hn : head.id ∉ (scope ++ part.heads).map Variable.id) : part.withName head new = part := by
  have hheads : head.id ∉ part.heads.map Variable.id := by
    rw [List.map_append, List.mem_append, not_or] at hn
    exact hn.2
  apply withName_of_notMem hheads
  intro hm
  obtain ⟨v, hv, hid⟩ := List.mem_map.mp hm
  cases hb : v.bound with
  | true => exact hn (hid ▸ hpart.resolved.id_mem hv hb)
  | false =>
    apply h.apart v (hvars v hv) hb
    rw [hid]
    exact List.mem_map_of_mem (List.mem_append_right scope hh)

/-- The variable of a lambda in the function has no occurrence in the argument. -/
theorem ScopedIn.withName_arg {n : Nat} {head : Variable} {f a : Term}
    (h : (app n f a).ScopedIn scope bound) (hh : head ∈ f.heads) :
    a.withName head new = a := by
  have hd := h.distinct
  simp only [heads, List.map_append, List.nodup_append, List.mem_append] at hd
  obtain ⟨_, ⟨_, _, hapart⟩, hscope⟩ := hd
  have hf : head.id ∈ f.heads.map Variable.id := List.mem_map_of_mem hh
  apply h.withName_part (List.mem_append_left _ hh) h.arg fun v hv => List.mem_append_right _ hv
  rw [List.map_append, List.mem_append]
  rintro (hm | hm)
  · exact hscope _ hm _ (.inl hf) rfl
  · exact hapart _ hf _ hm rfl

theorem ScopedIn.withName_fn {n : Nat} {head : Variable} {f a : Term}
    (h : (app n f a).ScopedIn scope bound) (hh : head ∈ a.heads) :
    f.withName head new = f := by
  have hd := h.distinct
  simp only [heads, List.map_append, List.nodup_append, List.mem_append] at hd
  obtain ⟨_, ⟨_, _, hapart⟩, hscope⟩ := hd
  have ha : head.id ∈ a.heads.map Variable.id := List.mem_map_of_mem hh
  apply h.withName_part (List.mem_append_right _ hh) h.fn fun v hv => List.mem_append_left _ hv
  rw [List.map_append, List.mem_append]
  rintro (hm | hm)
  · exact hscope _ hm _ (.inr ha) rfl
  · exact hapart _ hm _ ha rfl

/-- `head` and `body` are those of the first lambda that is called `old`: an outer one comes before
an inner one, and those of a function before those of its argument. -/
inductive First (old : String) (head : Variable) (body : Term) : Term → Prop
  | here (n : Nat) : head.name = old → First old head body (lam n head body)
  | lam {n : Nat} {x : Variable} {b : Term} :
      x.name ≠ old → First old head body b → First old head body (lam n x b)
  | fn {n : Nat} {f a : Term} : First old head body f → First old head body (app n f a)
  | arg {n : Nat} {f a : Term} :
      (∀ x ∈ f.heads, x.name ≠ old) → First old head body a → First old head body (app n f a)

theorem exists_first {t : Term} {head : Variable}
    (h : t.heads.find? (·.name == old) = some head) : ∃ body, First old head body t := by
  induction t with
  | var n v => simp [heads] at h
  | lam n x b ih =>
    by_cases hname : x.name = old
    · obtain rfl : x = head := by simpa [heads, hname] using h
      exact ⟨b, .here n hname⟩
    · obtain ⟨body, hb⟩ := ih (by simpa [heads, hname] using h)
      exact ⟨body, .lam hname hb⟩
  | app n f a hf ha =>
    simp only [heads, List.find?_append] at h
    cases hfind : f.heads.find? (·.name == old) with
    | some x =>
      obtain ⟨body, hb⟩ := hf (by simpa [hfind] using h)
      exact ⟨body, .fn hb⟩
    | none =>
      obtain ⟨body, hb⟩ := ha (by simpa [hfind] using h)
      exact ⟨body, .arg (by simpa [List.find?_eq_none] using hfind) hb⟩

namespace First

variable {t body : Term} {head : Variable}

theorem mem_heads (h : First old head body t) : head ∈ t.heads := by
  induction h with
  | here _ _ => exact List.mem_cons_self
  | lam _ _ ih => exact List.mem_cons_of_mem _ ih
  | fn _ ih => exact List.mem_append_left _ ih
  | arg _ _ ih => exact List.mem_append_right _ ih

/-- Inside another lambda the first one is renamed there and nothing else. -/
theorem withName_lam {n : Nat} {x : Variable} {b : Term} (h : First old head body b)
    (ht : (Term.lam n x b).ScopedIn scope bound) :
    (Term.lam n x b).withName head new = Term.lam n x (b.withName head new) := by
  have hne : x.id ≠ head.id := fun he => ht.body.head_notMem (he ▸ List.mem_map_of_mem h.mem_heads)
  rw [withName, Variable.withName_of_ne hne]

theorem withName_fn {n : Nat} {f a : Term} (h : First old head body f)
    (ht : (app n f a).ScopedIn scope bound) :
    (app n f a).withName head new = app n (f.withName head new) a := by
  rw [withName, ht.withName_arg h.mem_heads]

theorem withName_arg {n : Nat} {f a : Term} (h : First old head body a)
    (ht : (app n f a).ScopedIn scope bound) :
    (app n f a).withName head new = app n f (a.withName head new) := by
  rw [withName, ht.withName_fn h.mem_heads]

/-- The names in the body of the first lambda alone decide whether it is renamed. -/
theorem outcome (h : First old head body t) (ht : t.ScopedIn scope bound)
    (hhead : head.bound = true) (new : String) (s : Supply) :
    (clashes head.id new [] body = false ∧ ∃ t' s',
      t.renameFirst? old new s = .ok (some t') s' ∧ t'.alike (t.withName head new) = true) ∨
    (clashes head.id new [] body = true ∧ ∃ s',
      t.renameFirst? old new s = .error (.nameClash old new) s') := by
  induction h generalizing scope s with
  | here n hname =>
    cases hc : clashes head.id new [] body with
    | true =>
      refine .inr ⟨rfl, s, ?_⟩
      simp only [renameFirst?, hname, hc, if_true]
      rfl
    | false =>
      obtain ⟨_, m, b', hr, hg⟩ := renameHead_spec head new body s
      refine .inl ⟨rfl, .lam m (head.renamed new) b', (renameHead head new body s).2, ?_, ?_⟩
      · rw [← hr]
        simp only [renameFirst?, hname, hc, if_true]
        rfl
      · have halike := hg.alike_withName hhead ht.body.head_notMem ?_
        · simp [withName, Variable.withName_of_eq, alike, halike]
        · intro v hv hid
          by_contra hfree
          apply ht.apart v hv (by simpa using hfree)
          simp [heads, hid]
  | @lam n x b hname hb ih =>
    rw [hb.withName_lam ht, renameFirst?_lam new n b s hname]
    rcases ih ht.body s with ⟨hc, b', s', hs, halike⟩ | ⟨hc, s', hs⟩
    · refine .inl ⟨hc, .lam s'.node x b', { s' with node := s'.node + 1 }, ?_, ?_⟩
      · rw [hs]
        rfl
      · simp [alike, halike]
    · refine .inr ⟨hc, s', ?_⟩
      rw [hs]
  | @fn n f a hf ih =>
    rw [hf.withName_fn ht, renameFirst?_app]
    rcases ih ht.fn s with ⟨hc, f', s', hs, halike⟩ | ⟨hc, s', hs⟩
    · refine .inl ⟨hc, app s'.node f' a, { s' with node := s'.node + 1 }, ?_, ?_⟩
      · rw [hs]
      · simp [alike, halike, alike_refl]
    · refine .inr ⟨hc, s', ?_⟩
      rw [hs]
  | @arg n f a hn ha ih =>
    rw [ha.withName_arg ht, renameFirst?_app, renameFirst?_of_forall_ne s hn]
    rcases ih ht.arg s with ⟨hc, a', s', hs, halike⟩ | ⟨hc, s', hs⟩
    · refine .inl ⟨hc, app s'.node f a', { s' with node := s'.node + 1 }, ?_, ?_⟩
      · simp only [hs]
        rfl
      · simp [alike, halike, alike_refl]
    · refine .inr ⟨hc, s', ?_⟩
      simp only [hs]

/-- On a faithful term the names in that body tell whether the renamed term is faithful. -/
theorem faithfulIn_iff (h : First old head body t) (new : String) (ht : t.ScopedIn scope bound)
    (hf : t.FaithfulIn scope) :
    (t.withName head new).FaithfulIn scope ↔ clashes head.id new [] body = false := by
  induction h generalizing scope with
  | here n hname =>
    have hscope : (head :: scope).map (·.withName head new) = head.renamed new :: scope := by
      have hn : head.id ∉ scope.map Variable.id := by
        have hd := ht.distinct
        simp only [heads, List.map_append, List.nodup_append] at hd
        exact fun hm => hd.2.2 _ hm _ List.mem_cons_self rfl
      rw [List.map_cons, Variable.withName_of_eq rfl, Variable.map_withName_of_notMem hn]
    have hiff := faithfulIn_withName_iff new ht.body hf
    rw [hscope] at hiff
    rw [withName, Variable.withName_of_eq rfl]
    exact hiff
  | lam _ hb ih =>
    rw [hb.withName_lam ht]
    exact ih ht.body hf
  | @fn n f a hfirst ih =>
    obtain ⟨hff, hfa⟩ := (faithfulIn_app n f a).mp hf
    rw [hfirst.withName_fn ht, faithfulIn_app, and_iff_left hfa]
    exact ih ht.fn hff
  | @arg n f a _ hfirst ih =>
    obtain ⟨hff, hfa⟩ := (faithfulIn_app n f a).mp hf
    rw [hfirst.withName_arg ht, faithfulIn_app, and_iff_right hff]
    exact ih ht.arg hfa

end First

theorem rename_of_forall_ne {t : Term} (hne : old ≠ new) (h : ∀ head ∈ t.heads, head.name ≠ old)
    (s : Supply) : t.rename old new s = .ok t s := by
  have he := rename_eq old new t s
  simp only [rename?, hne, if_false, renameFirst?_of_forall_ne s h] at he
  exact he

theorem First.rename {t body : Term} {head : Variable} (h : First old head body t)
    (ht : t.ScopedIn [] bound) (hflag : t.Flagged) (hne : old ≠ new) (s : Supply) :
    (clashes head.id new [] body = false ∧ ∃ t' s', t.rename old new s = .ok t' s' ∧
      t'.alike (t.withName head new) = true) ∨
    (clashes head.id new [] body = true ∧ ∃ s',
      t.rename old new s = .error (.nameClash old new) s') := by
  have he := rename_eq old new t s
  simp only [rename?, hne, if_false] at he
  rcases h.outcome ht (hflag head h.mem_heads) new s with ⟨hc, t', s', hs, halike⟩ | ⟨hc, s', hs⟩
  · rw [hs] at he
    exact .inl ⟨hc, t', s', he, halike⟩
  · rw [hs] at he
    exact .inr ⟨hc, s', he⟩

/-- On a name-faithful term, renaming the first lambda of the old name succeeds exactly when the
renamed term is name-faithful again, and then it answers that term, which is well scoped. Otherwise
the names clash. Without a lambda of the old name the term itself comes back. -/
theorem rename_iff_nameFaithful {t : Term} (s : Supply) (hne : old ≠ new)
    (ht : t.WellScoped bound) (hflag : t.Flagged) (hf : t.NameFaithful) :
    (∀ head, t.heads.find? (·.name == old) = some head →
      ((∃ t' s', t.rename old new s = .ok t' s') ↔ (t.withName head new).NameFaithful) ∧
      (∀ t' s', t.rename old new s = .ok t' s' → t'.alike (t.withName head new) = true) ∧
      (∀ e s', t.rename old new s = .error e s' → e = .nameClash old new) ∧
      (t.withName head new).WellScoped bound) ∧
    (t.heads.find? (·.name == old) = none → t.rename old new s = .ok t s) := by
  have hin := (wellScoped_iff bound t).mp ht
  constructor
  · intro head hfind
    obtain ⟨body, hfirst⟩ := exists_first hfind
    have hscoped : (t.withName head new).WellScoped bound := ht.withName head new
    have hfaithful : (t.withName head new).NameFaithful ↔ clashes head.id new [] body = false :=
      hfirst.faithfulIn_iff new hin hf
    rw [hfaithful]
    rcases hfirst.rename hin hflag hne s with ⟨hc, t', s', hr, halike⟩ | ⟨hc, s', hr⟩
    · rw [hc, hr]
      refine ⟨iff_of_true ⟨t', s', rfl⟩ rfl, ?_, ?_, hscoped⟩
      · rintro _ _ ⟨⟩
        exact halike
      · rintro e s₁ ⟨⟩
    · rw [hc, hr]
      refine ⟨iff_of_false ?_ Bool.noConfusion, ?_, ?_, hscoped⟩
      · rintro ⟨u, s₁, ⟨⟩⟩
      · rintro u s₁ ⟨⟩
      · rintro _ _ ⟨⟩
        rfl
  · intro hnone
    exact rename_of_forall_ne hne (by simpa [List.find?_eq_none] using hnone) s

/-- Two lambdas are called `y`, one around the lambda called `x` and one inside it. -/
def nestedNames : Term :=
  lam 0 ⟨"y", true, 0⟩ (app 1 (var 2 ⟨"y", true, 0⟩)
    (lam 3 ⟨"x", true, 1⟩ (app 4 (lam 5 ⟨"y", true, 2⟩ (var 6 ⟨"y", true, 2⟩))
      (var 7 ⟨"x", true, 1⟩))))

/-- The lambda called `x` can take the name of the other two, since it captures neither's
occurrence. -/
theorem rename_iff_nameFaithful_nestedNames :
    nestedNames.WellScoped 3 ∧ nestedNames.Flagged ∧ nestedNames.NameFaithful ∧
      ∃ t' s', nestedNames.rename "x" "y" ⟨3, 8⟩ = .ok t' s' ∧
        t'.alike (nestedNames.withName ⟨"x", true, 1⟩ "y") = true := by
  have ht : nestedNames.WellScoped 3 := by constructor <;> decide
  have hflag : nestedNames.Flagged := by decide
  have hf : nestedNames.NameFaithful := by decide
  have h := rename_iff_nameFaithful ⟨3, 8⟩ (by decide : "x" ≠ "y") ht hflag hf
  obtain ⟨hiff, halike, _⟩ := h.1 ⟨"x", true, 1⟩ (by decide)
  obtain ⟨t', s', hr⟩ := hiff.mpr (by decide)
  exact ⟨ht, hflag, hf, t', s', hr, halike t' s' hr⟩

end Term

end LambdaCalc
