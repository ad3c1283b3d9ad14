import LambdaCalc.Term.Reduction
import LambdaCalc.Proofs.Nameless

namespace LambdaCalc.Term

/-- `t'` is a copy of `t` with fresh heads, where `renewed` maps the lambdas around it to theirs.
The supply goes from the first number to the second one, here and in the relations below. -/
inductive Copied : List (Nat × Variable) → Nat → Nat → Term → Term → Prop
  | renewed {renewed : List (Nat × Variable)} {c n m : Nat} {v head : Variable} :
      renewed.lookup v.id = some head → Copied renewed c c (var n v) (var m head)
  | kept {renewed : List (Nat × Variable)} {c n : Nat} {v : Variable} :
      renewed.lookup v.id = none → Copied renewed c c (var n v) (var n v)
  | lam {renewed : List (Nat × Variable)} {c d n m : Nat} {head : Variable} {b b' : Term} :
      Copied ((head.id, ⟨head.name, true, c⟩) :: renewed) (c + 1) d b b' →
      Copied renewed c d (lam n head b) (lam m ⟨head.name, true, c⟩ b')
  | app {renewed : List (Nat × Variable)} {c d e n m : Nat} {f f' a a' : Term} :
      Copied renewed c d f f' → Copied renewed d e a a' →
      Copied renewed c e (app n f a) (app m f' a')

/-- `t'` is `t` with something that `copy` allows in the place of every bound occurrence of the
identity. -/
inductive Grafted (id : Nat) (copy : Nat → Nat → Term → Prop) : Nat → Nat → Term → Term → Prop
  | hit {c d n : Nat} {v : Variable} {t' : Term} :
      v.bound = true → v.id = id → copy c d t' → Grafted id copy c d (var n v) t'
  | miss {c n : Nat} {v : Variable} :
      ¬(v.bound = true ∧ v.id = id) → Grafted id copy c c (var n v) (var n v)
  | shadow {c n : Nat} {head : Variable} {b : Term} :
      head.id = id → Grafted id copy c c (lam n head b) (lam n head b)
  | lam {c d n m : Nat} {head : Variable} {b b' : Term} :
      head.id ≠ id → Grafted id copy c d b b' →
      Grafted id copy c d (lam n head b) (lam m head b')
  | app {c d e n m : Nat} {f f' a a' : Term} :
      Grafted id copy c d f f' → Grafted id copy d e a a' →
      Grafted id copy c e (app n f a) (app m f' a')

/-- `t'` is `t` after one step. -/
inductive Reduced : Nat → Nat → Term → Term → Prop
  | contract {c d n m : Nat} {head : Variable} {b arg t' : Term} :
      Grafted head.id (fun c d u => Copied [] c d arg u) c d b t' →
      Reduced c d (app n (lam m head b) arg) t'
  | lam {c d n m : Nat} {head : Variable} {b b' : Term} :
      Reduced c d b b' → Reduced c d (lam n head b) (lam m head b')
  | fn {c d n m : Nat} {f f' a : Term} :
      f.isLam = false → Reduced c d f f' → Reduced c d (app n f a) (app m f' a)
  | arg {c d n m : Nat} {f a a' : Term} :
      f.isLam = false → f.hasRedex = false → Reduced c d a a' →
      Reduced c d (app n f a) (app m f a')

/-- Putting an application back together draws a label at most. -/
theorem rebuildApp_getD (n : Nat) (fn arg : Term) (fn' arg' : Option Term) (s : Supply) :
    (∃ m, (rebuildApp fn arg fn' arg' s).1.getD (app n fn arg) =
      app m (fn'.getD fn) (arg'.getD arg)) ∧ (rebuildApp fn arg fn' arg' s).2.id = s.id := by
  cases fn' <;> cases arg' <;> exact ⟨⟨_, rfl⟩, rfl⟩

theorem rebuildLam_getD (n : Nat) (head : Variable) (b : Term) (b' : Option Term) (s : Supply) :
    (∃ m, (rebuildLam head b' s).1.getD (lam n head b) = lam m head (b'.getD b)) ∧
      (rebuildLam head b' s).2.id = s.id := by
  cases b' <;> exact ⟨⟨_, rfl⟩, rfl⟩

theorem refresh?_copied (renewed : List (Nat × Variable)) (t : Term) (s : Supply) :
    Copied renewed s.id (refresh? renewed t s).2.id t ((refresh? renewed t s).1.getD t) := by
  induction t generalizing renewed s with
  | var n v =>
    cases h : renewed.lookup v.id with
    | none =>
      simp only [refresh?, h]
      exact .kept h
    | some head =>
      simp only [refresh?, h]
      exact .renewed h
  | lam n head b ih => exact .lam (ih _ { s with id := s.id + 1 })
  | app n f a hf ha =>
    let rf := refresh? renewed f s
    let ra := refresh? renewed a rf.2
    obtain ⟨⟨m, ht⟩, hs⟩ := rebuildApp_getD n f a rf.1 ra.1 ra.2
    change Copied renewed s.id (rebuildApp f a rf.1 ra.1 ra.2).2.id _
      ((rebuildApp f a rf.1 ra.1 ra.2).1.getD _)
    rw [hs, ht]
    exact .app (hf renewed s) (ha renewed rf.2)

theorem refresh_copied (t : Term) (s : Supply) :
    Copied [] s.id (t.refresh s).2.id t (t.refresh s).1 :=
  refresh?_copied [] t s

/-- A copy is put in even if it is the very node whose place it takes. -/
theorem substitute_hit (id n : Nat) (copy : Fresh Term) (v : Variable) (s : Supply)
    (hv : v.bound = true ∧ v.id = id) : (var n v).substitute id copy s = copy s := by
  have hb : (v.bound && v.id == id) = true := by simp [hv.1, hv.2]
  simp only [substitute, substitute?, hb, if_true]
  change ((if (copy s).1 = var n v then none else some (copy s).1).getD (var n v), (copy s).2) = _
  split
  · next h => exact Prod.ext h.symm rfl
  · rfl

theorem substitute?_lam {id : Nat} {head : Variable} (hid : head.id ≠ id) (n : Nat)
    (copy : Fresh Term) (b : Term) (s : Supply) :
    (lam n head b).substitute? id copy s =
      rebuildLam head (b.substitute? id copy s).1 (b.substitute? id copy s).2 := by
  simp only [substitute?, hid, if_false]
  rfl

/-- The function comes first, and the argument goes on with the supply that it leaves. -/
theorem substitute?_app (id n : Nat) (copy : Fresh Term) (f a : Term) (s : Supply) :
    (app n f a).substitute? id copy s =
      rebuildApp f a (f.substitute? id copy s).1
        (a.substitute? id copy (f.substitute? id copy s).2).1
        (a.substitute? id copy (f.substitute? id copy s).2).2 := rfl

/-- A lambda of another identity is put back together around its body. -/
theorem exists_substitute_lam {id n : Nat} {head : Variable} (hid : head.id ≠ id)
    (copy : Fresh Term) (b : Term) (s : Supply) :
    ∃ m, ((lam n head b).substitute id copy s).1 = lam m head (b.substitute id copy s).1 ∧
      ((lam n head b).substitute id copy s).2.id = (b.substitute id copy s).2.id := by
  obtain ⟨⟨m, ht⟩, hs⟩ := rebuildLam_getD n head b (b.substitute? id copy s).1
    (b.substitute? id copy s).2
  rw [← substitute?_lam hid n copy b s] at ht hs
  exact ⟨m, ht, hs⟩

theorem substitute_shadow {id : Nat} {head : Variable} (hid : head.id = id) (n : Nat)
    (copy : Fresh Term) (b : Term) (s : Supply) :
    (lam n head b).substitute id copy s = (lam n head b, s) := by
  simp only [substitute, substitute?, hid, if_true]
  rfl

theorem exists_substitute_app (id n : Nat) (copy : Fresh Term) (f a : Term) (s : Supply) :
    ∃ m, ((app n f a).substitute id copy s).1 =
        app m (f.substitute id copy s).1 (a.substitute id copy (f.substitute id copy s).2).1 ∧
      ((app n f a).substitute id copy s).2.id =
        (a.substitute id copy (f.substitute id copy s).2).2.id := by
  obtain ⟨⟨m, ht⟩, hs⟩ := rebuildApp_getD n f a (f.substitute? id copy s).1
    (a.substitute? id copy (f.substitute? id copy s).2).1
    (a.substitute? id copy (f.substitute? id copy s).2).2
  rw [← substitute?_app id n copy f a s] at ht hs
  exact ⟨m, ht, hs⟩

theorem substitute_grafted {id : Nat} {copy : Fresh Term} {Copy : Nat → Nat → Term → Prop}
    (hcopy : ∀ s, Copy s.id (copy s).2.id (copy s).1) (t : Term) (s : Supply) :
    Grafted id Copy s.id (t.substitute id copy s).2.id t (t.substitute id copy s).1 := by
  induction t generalizing s with
  | var n v =>
    by_cases hv : v.bound = true ∧ v.id = id
    · rw [substitute_hit id n copy v s hv]
      exact .hit hv.1 hv.2 (hcopy s)
    · have hb : (v.bound && v.id == id) = false := by simpa using hv
      simp only [substitute, substitute?, hb]
      exact .miss hv
  | lam n head b ih =>
    by_cases hid : head.id = id
    · rw [substitute_shadow hid]
      exact .shadow hid
    · obtain ⟨m, ht, hs⟩ := exists_substitute_lam (n := n) hid copy b s
      rw [ht, hs]
      exact .lam hid (ih s)
  | app n f a hf ha =>
    obtain ⟨m, ht, hs⟩ := exists_substitute_app id n copy f a s
    rw [ht, hs]
    exact .app (hf s) (ha _)

theorem step?_lam (n : Nat) (head : Variable) (b : Term) (s : Supply) :
    (lam n head b).step? s = rebuildLam head (b.step? s).1 (b.step? s).2 := rfl

/-- The search for a redex below an application whose function is no lambda. -/
theorem step?_app (n : Nat) (f a : Term) (s : Supply) (hf : f.isLam = false) :
    (app n f a).step? s =
      match (f.step? s).1 with
      | some f' => (some <$> newApp f' a) (f.step? s).2
      | none => rebuildApp f a none (a.step? (f.step? s).2).1 (a.step? (f.step? s).2).2 := by
  have he : (app n f a).step? s = (match (f.step? s).1 with
      | some f' => some <$> newApp f' a
      | none => do rebuildApp f a none (← a.step?)) (f.step? s).2 := by
    cases f with
    | var _ _ => rfl
    | lam _ _ _ => simp [isLam] at hf
    | app _ _ _ => rfl
  rw [he]
  cases (f.step? s).1 <;> rfl

/-- A step is computed exactly for a term with a redex. Without one nothing is drawn. -/
theorem step?_spec (t : Term) (s : Supply) :
    (t.hasRedex = false ∧ t.step? s = (none, s)) ∨
      ∃ t' s', t.hasRedex = true ∧ t.step? s = (some t', s') ∧ Reduced s.id s'.id t t' := by
  induction t generalizing s with
  | var n v => exact .inl ⟨rfl, rfl⟩
  | lam n head b ih =>
    rcases ih s with ⟨hr, hs⟩ | ⟨b', s', hr, hs, hred⟩
    · refine .inl ⟨hr, ?_⟩
      rw [step?_lam, hs]
      rfl
    · refine .inr ⟨lam s'.node head b', { s' with node := s'.node + 1 }, hr, ?_, .lam hred⟩
      rw [step?_lam, hs]
      rfl
  | app n f a hf ha =>
    cases hl : f.isLam with
    | true =>
      cases f with
      | var _ _ => simp [isLam] at hl
      | app _ _ _ => simp [isLam] at hl
      | lam m head b =>
        exact .inr ⟨_, _, by simp [hasRedex, isLam], rfl,
          .contract (substitute_grafted (refresh_copied a) b s)⟩
    | false =>
      rw [step?_app n f a s hl]
      rcases hf s with ⟨hr, hs⟩ | ⟨f', s', hr, hs, hred⟩
      · rw [hs]
        rcases ha s with ⟨har, has⟩ | ⟨a', s', har, has, hred⟩
        · exact .inl ⟨by simp [hasRedex, hl, hr, har], by simp only [has]; rfl⟩
        · refine .inr ⟨app s'.node f a', { s' with node := s'.node + 1 }, ?_, ?_, .arg hl hr hred⟩
          · simp [hasRedex, har]
          · simp only [has]
            rfl
      · rw [hs]
        refine .inr ⟨app s'.node f' a, { s' with node := s'.node + 1 }, ?_, rfl, .fn hl hred⟩
        simp [hasRedex, hr]

theorem step?_of_normal {t : Term} (h : t.hasRedex = false) (s : Supply) :
    t.step? s = (none, s) := by
  rcases step?_spec t s with ⟨_, hs⟩ | ⟨_, _, hr, _, _⟩
  · exact hs
  · simp [h] at hr

theorem normal_of_step? {t : Term} {s s' : Supply} (h : t.step? s = (none, s')) :
    t.hasRedex = false ∧ s' = s := by
  rcases step?_spec t s with ⟨hr, hs⟩ | ⟨t', s₁, -, hs, -⟩
  · rw [hs] at h
    cases h
    exact ⟨hr, rfl⟩
  · rw [hs] at h
    cases h

theorem step?_of_hasRedex {t : Term} (h : t.hasRedex = true) (s : Supply) :
    t.step? s = (some (t.step s).1, (t.step s).2) := by
  rcases step?_spec t s with ⟨hr, _⟩ | ⟨t', s', _, hs, _⟩
  · simp [h] at hr
  · have he : t.step s = ((t.step? s).1.getD t, (t.step? s).2) := rfl
    rw [he, hs]
    rfl

/-- A term with a redex takes a step, and a term without one stays. -/
theorem step_spec (t : Term) (s : Supply) :
    (t.hasRedex = false ∧ t.step s = (t, s)) ∨
      (t.hasRedex = true ∧ Reduced s.id (t.step s).2.id t (t.step s).1) := by
  have he : t.step s = ((t.step? s).1.getD t, (t.step? s).2) := rfl
  rcases step?_spec t s with ⟨hr, hs⟩ | ⟨t', s', hr, hs, hred⟩
  · exact .inl ⟨hr, by rw [he, hs]; rfl⟩
  · refine .inr ⟨hr, ?_⟩
    rw [he, hs]
    exact hred

end LambdaCalc.Term
