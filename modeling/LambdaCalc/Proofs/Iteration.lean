import LambdaCalc.Proofs.Normalization

namespace LambdaCalc

namespace Nameless

variable {i j k : ℕ} {t u v f x : Nameless}

namespace NormalSteps

theorem single (h : NormalStep t u) : NormalSteps 1 t u := .head h (.refl u)

theorem trans (h : NormalSteps j t u) (h' : NormalSteps k u v) : NormalSteps (j + k) t v := by
  induction h with
  | refl => rwa [Nat.zero_add]
  | head hs _ ih =>
    rw [Nat.add_right_comm]
    exact .head hs (ih h')

/-- What is done to every term along a reduction is done to its ends. -/
theorem map (wrap : Nameless → Nameless)
    (hwrap : ∀ t u, NormalStep t u → NormalStep (wrap t) (wrap u))
    (h : NormalSteps k t u) : NormalSteps k (wrap t) (wrap u) := by
  induction h with
  | refl => exact .refl _
  | head hs _ ih => exact .head (hwrap _ _ hs) ih

theorem lam (h : NormalSteps k t u) : NormalSteps k (lam t) (lam u) :=
  h.map Nameless.lam fun _ _ => .lam

/-- An argument is reduced below any number of applications of a term that has no redex and is no
lambda. -/
theorem iterate_app (n : ℕ) (hl : f.isLam = false) (hr : f.hasRedex = false)
    (h : NormalSteps k t u) : NormalSteps k ((app f)^[n] t) ((app f)^[n] u) := by
  induction n with
  | zero => exact h
  | succ n ih =>
    rw [Function.iterate_succ_apply', Function.iterate_succ_apply']
    exact ih.map (app f) fun _ _ => .arg hl hr

end NormalSteps

theorem hasRedex_iterate_app (n : ℕ) (hl : f.isLam = false) (hr : f.hasRedex = false) :
    ((app f)^[n] t).hasRedex = t.hasRedex := by
  induction n with
  | zero => rfl
  | succ n ih =>
    rw [Function.iterate_succ_apply', hasRedex, hl, hr, ih, Bool.or_self, Bool.false_or]

theorem lift_iterate_app (n m d : ℕ) :
    ((app f)^[n] x).lift m d = (app (f.lift m d))^[n] (x.lift m d) := by
  induction n with
  | zero => rfl
  | succ n ih => rw [Function.iterate_succ_apply', Function.iterate_succ_apply', lift, ih]

theorem subst_iterate_app (n d : ℕ) (a : Nameless) :
    ((app f)^[n] x).subst a d = (app (f.subst a d))^[n] (x.subst a d) := by
  induction n with
  | zero => rfl
  | succ n ih => rw [Function.iterate_succ_apply', Function.iterate_succ_apply', subst, ih]

theorem lift_zero (t : Nameless) (d : ℕ) : t.lift 0 d = t := by
  induction t generalizing d with
  | index i => simp [lift]
  | free name id => rfl
  | lam b ih => rw [lift, ih]
  | app f a hf ha => rw [lift, hf, ha]

/-- The reading of a numeral. -/
def numeral (n : ℕ) : Nameless := lam (lam ((app (index 1))^[n] (index 0)))

variable (n : ℕ)

theorem hasRedex_numeral : (numeral n).hasRedex = false :=
  hasRedex_iterate_app n rfl rfl

/-- A numeral has no free variable, so nothing is moved or put in. -/
theorem lift_numeral (m d : ℕ) : (numeral n).lift m d = numeral n := by
  simp [numeral, lift, lift_iterate_app]

theorem subst_numeral (a : Nameless) (d : ℕ) : (numeral n).subst a d = numeral n := by
  simp [numeral, subst, subst_iterate_app]

/-- The first step puts the function in the place of the outer variable. -/
theorem numeral_step (f : Nameless) :
    NormalStep (app (numeral n) f) (lam ((app (f.lift 1 0))^[n] (index 0))) := by
  have h : NormalStep (app (numeral n) f) _ := .contract (lam ((app (index 1))^[n] (index 0))) f
  simpa [subst, subst_iterate_app] using h

/-- The second one puts the argument in the place of the inner variable. -/
theorem iterate_step (f x : Nameless) :
    NormalStep (app (lam ((app (f.lift 1 0))^[n] (index 0))) x) ((app f)^[n] x) := by
  have h := NormalStep.contract ((app (f.lift 1 0))^[n] (index 0)) x
  have hf : (f.lift 1 0).subst x 0 = f := by
    rw [subst_lift_cancel f x (Nat.le_refl 0) (Nat.le_refl 0), lift_zero]
  rwa [subst_iterate_app, hf, subst_index_self, lift_zero] at h

/-- A numeral applies any function as often as it says, whatever the function and its argument
are. -/
theorem numeral_steps (f x : Nameless) :
    NormalSteps 2 (app (app (numeral n) f) x) ((app f)^[n] x) :=
  .head (.fn x rfl (numeral_step n f)) (.single (iterate_step n f x))

end Nameless

namespace Term

/-- A normal form of the reading that is so many steps away is what the same number of steps on the
term leads to, and none of them is taken too much. -/
theorem stepsToNormal_of_normalSteps {k : ℕ} {n : Nameless} {t : Term} {s : Supply}
    (ht : t.ScopedIn [] s.id) (h : Nameless.NormalSteps k t.nameless n)
    (hn : n.hasRedex = false) :
    t.stepsToNormal s = k ∧ (t.stepTimes k s).1.nameless = n := by
  obtain ⟨hk, hbefore⟩ := stepTimes_of_normalSteps ht h
  refine ⟨stepsToNormal_eq hbefore ?_, hk⟩
  rw [← hasRedex_namelessIn [], ← nameless, hk]
  exact hn

end Term

end LambdaCalc
