import LambdaCalc.Proofs.Budget
import LambdaCalc.Proofs.Lifting
import LambdaCalc.Proofs.NormalOrder
import Mathlib.Logic.Relation

namespace LambdaCalc

namespace Nameless

open Relation

/-- What is done to every term along a reduction is done to its ends. -/
theorem map_steps {R S : Nameless → Nameless → Prop} (f : Nameless → Nameless)
    (h : ∀ t u, R t u → S (f t) (f u)) {t u : Nameless} (hs : ReflTransGen R t u) :
    ReflTransGen S (f t) (f u) :=
  ReflTransGen.lift f h t u hs

/-- A contraction anywhere in a term. -/
inductive Beta : Nameless → Nameless → Prop
  | contract (body arg : Nameless) : Beta (app (lam body) arg) (body.subst arg 0)
  | lam {body body' : Nameless} : Beta body body' → Beta (lam body) (lam body')
  | fn {f f' : Nameless} (arg : Nameless) : Beta f f' → Beta (app f arg) (app f' arg)
  | arg {a a' : Nameless} (f : Nameless) : Beta a a' → Beta (app f a) (app f a')

/-- Nothing can be contracted. -/
def Normal (t : Nameless) : Prop := ∀ u, ¬Beta t u

theorem exists_beta_of_isLam {f : Nameless} (h : f.isLam = true) (arg : Nameless) :
    ∃ u, Beta (app f arg) u := by
  cases f with
  | lam body => exact ⟨_, .contract body arg⟩
  | _ => simp [isLam] at h

theorem exists_beta_of_hasRedex {t : Nameless} (h : t.hasRedex = true) : ∃ u, Beta t u := by
  induction t with
  | index i => simp [hasRedex] at h
  | free name id => simp [hasRedex] at h
  | lam body ih =>
    obtain ⟨u, hu⟩ := ih h
    exact ⟨_, .lam hu⟩
  | app f a hf ha =>
    simp only [hasRedex, Bool.or_eq_true] at h
    obtain (hl | hr) | hr := h
    · exact exists_beta_of_isLam hl a
    · obtain ⟨u, hu⟩ := hf hr
      exact ⟨_, .fn a hu⟩
    · obtain ⟨u, hu⟩ := ha hr
      exact ⟨_, .arg f hu⟩

theorem Normal.hasRedex_eq_false {t : Nameless} (h : t.Normal) : t.hasRedex = false := by
  by_contra hr
  obtain ⟨u, hu⟩ := exists_beta_of_hasRedex (by simpa using hr)
  exact h u hu

/-- A step at the very front: the function of an application is reduced until it is a lambda. -/
inductive WeakStep : Nameless → Nameless → Prop
  | contract (body arg : Nameless) : WeakStep (app (lam body) arg) (body.subst arg 0)
  | fn {f f' : Nameless} (arg : Nameless) : WeakStep f f' → WeakStep (app f arg) (app f' arg)

namespace WeakStep

variable {t u : Nameless}

theorem lift (h : WeakStep t u) (n d : Nat) : WeakStep (t.lift n d) (u.lift n d) := by
  induction h with
  | contract body arg =>
    have hpass := body.lift_subst arg n 0 d
    rw [Nat.zero_add] at hpass
    rw [hpass]
    exact .contract _ _
  | fn arg _ ih => exact .fn _ ih

theorem subst (h : WeakStep t u) (a : Nameless) (d : Nat) :
    WeakStep (t.subst a d) (u.subst a d) := by
  induction h with
  | contract body arg =>
    have hpass := body.subst_subst arg a 0 d
    rw [Nat.zero_add] at hpass
    rw [hpass]
    exact .contract _ _
  | fn arg _ ih => exact .fn _ ih

/-- A lambda takes no step at the front, so these steps are steps of normal order. -/
theorem normalStep (h : WeakStep t u) : NormalStep t u := by
  induction h with
  | contract body arg => exact .contract body arg
  | fn arg hf ih =>
    have hl := hf
    cases hl <;> exact .fn arg rfl ih

end WeakStep

/-- A reduction in standard order. Steps at the front lead to a term whose constructor stays, and
then its parts are reduced in standard order. -/
inductive Standard : Nameless → Nameless → Prop
  | index {t : Nameless} {i : Nat} : ReflTransGen WeakStep t (index i) → Standard t (index i)
  | free {t : Nameless} {name : String} {id : Nat} :
      ReflTransGen WeakStep t (free name id) → Standard t (free name id)
  | lam {t b b' : Nameless} :
      ReflTransGen WeakStep t (lam b) → Standard b b' → Standard t (lam b')
  | app {t f f' a a' : Nameless} :
      ReflTransGen WeakStep t (app f a) → Standard f f' → Standard a a' → Standard t (app f' a')

namespace Standard

variable {t u v a b : Nameless}

theorem refl (t : Nameless) : Standard t t := by
  induction t with
  | index i => exact .index .refl
  | free name id => exact .free .refl
  | lam body ih => exact .lam .refl ih
  | app fn arg hf ha => exact .app .refl hf ha

theorem after (hs : ReflTransGen WeakStep t u) (h : Standard u v) : Standard t v := by
  cases h with
  | index hu => exact .index (hs.trans hu)
  | free hu => exact .free (hs.trans hu)
  | lam hu hb => exact .lam (hs.trans hu) hb
  | app hu hf ha => exact .app (hs.trans hu) hf ha

theorem lift (h : Standard t u) (n d : Nat) : Standard (t.lift n d) (u.lift n d) := by
  have hlift {x y : Nameless} (hs : ReflTransGen WeakStep x y) (d : Nat) :
      ReflTransGen WeakStep (x.lift n d) (y.lift n d) :=
    map_steps (Nameless.lift n d) (fun _ _ hstep => hstep.lift n d) hs
  induction h generalizing d with
  | index hs => exact after (hlift hs d) (refl _)
  | free hs => exact after (hlift hs d) (refl _)
  | lam hs _ ih => exact .lam (hlift hs d) (ih (d + 1))
  | app hs _ _ hf ha => exact .app (hlift hs d) (hf d) (ha d)

theorem subst (h : Standard t u) (ha : Standard a b) (d : Nat) :
    Standard (t.subst a d) (u.subst b d) := by
  have hsubst {x y : Nameless} (hs : ReflTransGen WeakStep x y) (d : Nat) :
      ReflTransGen WeakStep (x.subst a d) (y.subst a d) :=
    map_steps (Nameless.subst · a d) (fun _ _ hstep => hstep.subst a d) hs
  induction h generalizing d with
  | @index t i hs =>
    refine after (hsubst hs d) ?_
    rcases Nat.lt_trichotomy i d with hi | rfl | hi
    · rw [subst_index_of_lt a hi, subst_index_of_lt b hi]
      exact refl _
    · rw [subst_index_self, subst_index_self]
      exact ha.lift i 0
    · rw [subst_index_of_gt a hi, subst_index_of_gt b hi]
      exact refl _
  | free hs => exact after (hsubst hs d) (refl _)
  | lam hs _ ih => exact .lam (hsubst hs d) (ih (d + 1))
  | app hs _ _ hf harg => exact .app (hsubst hs d) (hf d) (harg d)

/-- The contraction of a redex that comes last is moved to the front. -/
theorem contract (h : Standard t (.app (.lam b) a)) : Standard t (b.subst a 0) := by
  cases h with
  | @app _ f _ arg _ hs hf ha =>
    cases hf with
    | @lam _ body _ hsf hb =>
      have hfn : ReflTransGen WeakStep (.app f arg) (.app (.lam body) arg) :=
        map_steps (Nameless.app · arg) (fun _ _ => .fn arg) hsf
      have hfront := (hs.trans hfn).tail (.contract body arg)
      exact after hfront (hb.subst ha 0)

theorem beta (h : Standard t u) (hb : Beta u v) : Standard t v := by
  induction hb generalizing t with
  | contract body arg => exact h.contract
  | lam _ ih =>
    cases h with
    | lam hs hbody => exact .lam hs (ih hbody)
  | fn arg _ ih =>
    cases h with
    | app hs hf ha => exact .app hs (ih hf) ha
  | arg f _ ih =>
    cases h with
    | app hs hf ha => exact .app hs hf (ih ha)

/-- Whatever can be reached by contractions can be reached in standard order. -/
theorem of_betas (h : ReflTransGen Beta t u) : Standard t u := by
  induction h with
  | refl => exact refl t
  | tail _ hb ih => exact ih.beta hb

end Standard

theorem NormalStep.isLam_eq_true {t u : Nameless} (h : NormalStep t u) (ht : t.isLam = true) :
    u.isLam = true := by
  cases h with
  | lam _ => rfl
  | _ => simp [isLam] at ht

theorem normalSteps_fn {f f' : Nameless} (arg : Nameless) (h : ReflTransGen NormalStep f f')
    (hf : f'.isLam = false) : ReflTransGen NormalStep (app f arg) (app f' arg) := by
  induction h with
  | refl => exact .refl
  | @tail g g' _ hs ih =>
    have hg : g.isLam = false := by
      by_contra hl
      have hl' := hs.isLam_eq_true (by simpa using hl)
      simp [hf] at hl'
    exact (ih hg).tail (.fn arg hg hs)

/-- A reduction in standard order to a normal form is one in normal order. -/
theorem Standard.normalSteps {t u : Nameless} (h : Standard t u) (hu : u.hasRedex = false) :
    ReflTransGen NormalStep t u := by
  have hfront {x y : Nameless} (hs : ReflTransGen WeakStep x y) : ReflTransGen NormalStep x y :=
    map_steps id (fun _ _ => WeakStep.normalStep) hs
  induction h with
  | index hs => exact hfront hs
  | free hs => exact hfront hs
  | lam hs _ ih =>
    exact (hfront hs).trans (map_steps Nameless.lam (fun _ _ => .lam) (ih hu))
  | @app t f f' a a' hs _ _ hf ha =>
    simp only [hasRedex, Bool.or_eq_false_iff] at hu
    obtain ⟨⟨hl, hfr⟩, har⟩ := hu
    have hfn := normalSteps_fn a (hf hfr) hl
    have harg : ReflTransGen NormalStep (.app f' a) (.app f' a') :=
      map_steps (Nameless.app f') (fun _ _ => .arg hl hfr) (ha har)
    exact ((hfront hs).trans hfn).trans harg

/-- So many steps in normal order. -/
inductive NormalSteps : ℕ → Nameless → Nameless → Prop
  | refl (t : Nameless) : NormalSteps 0 t t
  | head {k : ℕ} {t u v : Nameless} :
      NormalStep t u → NormalSteps k u v → NormalSteps (k + 1) t v

theorem exists_normalSteps {t u : Nameless} (h : ReflTransGen NormalStep t u) :
    ∃ k, NormalSteps k t u := by
  induction h using ReflTransGen.head_induction_on with
  | refl => exact ⟨0, .refl u⟩
  | head hs _ ih =>
    obtain ⟨k, hk⟩ := ih
    exact ⟨k + 1, .head hs hk⟩

end Nameless

namespace Term

open Relation

/-- Taking steps follows normal order on the readings. -/
theorem stepTimes_of_normalSteps {k : ℕ} {n : Nameless} {t : Term} {s : Supply}
    (ht : t.ScopedIn [] s.id) (h : Nameless.NormalSteps k t.nameless n) :
    (t.stepTimes k s).1.nameless = n ∧ ∀ i < k, (t.stepTimes i s).1.hasRedex = true := by
  generalize hm : t.nameless = m at h
  induction h generalizing t s with
  | refl => exact ⟨hm, fun i hi => absurd hi (Nat.not_lt_zero i)⟩
  | head hs _ ih =>
    subst hm
    rcases step_spec t s with ⟨hr, _⟩ | ⟨hr, hred⟩
    · have hr' := hs.hasRedex_eq_true
      rw [nameless, hasRedex_namelessIn, hr] at hr'
      cases hr'
    · have hstep : t.nameless.NormalStep (t.step s).1.nameless := hred.normalStep ht
      obtain ⟨hk, hbefore⟩ := ih (hred.scopedIn ht) (hstep.unique hs)
      refine ⟨hk, ?_⟩
      intro i hi
      cases i with
      | zero => exact hr
      | succ i => exact hbefore i (Nat.lt_of_succ_lt_succ hi)

theorem exists_stepTimes {n : Nameless} {t : Term} {s : Supply} (ht : t.ScopedIn [] s.id)
    (h : ReflTransGen Nameless.NormalStep t.nameless n) :
    ∃ k, (t.stepTimes k s).1.nameless = n ∧
      ∀ i < k, (t.stepTimes i s).1.hasRedex = true := by
  obtain ⟨k, hk⟩ := Nameless.exists_normalSteps h
  exact ⟨k, stepTimes_of_normalSteps ht hk⟩

end Term

namespace BetaReduction

open Relation

/-- A term that can be reduced to a normal form, by contractions in any order, comes to its normal
form after some number of steps, and the reduction to normal form without a budget answers it
whenever it has more patience than that. -/
theorem execute_of_betas {t : Term} {s : Supply} {n : Nameless} (ht : t.WellScoped s.id)
    (h : ReflTransGen Nameless.Beta t.nameless n) (hn : n.Normal) :
    ∃ k : ℕ, t.stepsToNormal s = k ∧ ∀ patience, k < patience →
      ∃ u s', (⟨0, 0⟩ : BetaReduction).execute patience t s = .ok u s' ∧ u.nameless = n := by
  have hr := hn.hasRedex_eq_false
  have hsteps := (Nameless.Standard.of_betas h).normalSteps hr
  obtain ⟨k, hk, hbefore⟩ := Term.exists_stepTimes ((Term.wellScoped_iff s.id t).mp ht) hsteps
  have hnormal : (t.stepTimes k s).1.hasRedex = false := by
    rw [← Term.hasRedex_namelessIn [], ← Term.nameless, hk]
    exact hr
  have hcount : t.stepsToNormal s = k := Term.stepsToNormal_eq hbefore hnormal
  refine ⟨k, hcount, fun patience hpatience => ?_⟩
  have hanswer := outcome_execute_of_normal 0 k patience t s hcount (by simpa using hpatience)
  cases he : (⟨0, 0⟩ : BetaReduction).execute patience t s with
  | ok u s' =>
    rw [Attempt.outcome, he] at hanswer
    cases hanswer
    exact ⟨_, s', rfl, hk⟩
  | error e s' =>
    rw [Attempt.outcome, he] at hanswer
    cases hanswer

/-- The loop in the argument of `droppedLoop` is run once before it is dropped. -/
theorem execute_of_betas_droppedLoop :
    droppedLoop.WellScoped 5 ∧
      ReflTransGen Nameless.Beta droppedLoop.nameless (.free "z" 2) ∧
      (Nameless.free "z" 2).Normal ∧
      ∃ k : ℕ, ∀ patience, k < patience → ∃ u s',
        (⟨0, 0⟩ : BetaReduction).execute patience droppedLoop ⟨5, 15⟩ = .ok u s' ∧
          u.nameless = .free "z" 2 := by
  have ht : droppedLoop.WellScoped 5 := by constructor <;> decide
  have hloop : Nameless.Beta droppedLoop.nameless droppedLoop.nameless :=
    .arg _ (.contract (.app (.index 0) (.index 0)) (.lam (.app (.index 0) (.index 0))))
  have hfirst : Nameless.Beta droppedLoop.nameless
      (.app (.lam (.free "z" 2)) (.app (.lam (.app (.index 0) (.index 0)))
        (.lam (.app (.index 0) (.index 0))))) :=
    .fn _ (.contract (.lam (.index 1)) (.free "z" 2))
  have hsteps : ReflTransGen Nameless.Beta droppedLoop.nameless (.free "z" 2) :=
    .head hloop (.head hfirst (.single (.contract (.free "z" 2) _)))
  have hn : (Nameless.free "z" 2).Normal := fun u hu => by cases hu
  obtain ⟨k, -, hk⟩ := execute_of_betas (s := ⟨5, 15⟩) ht hsteps hn
  exact ⟨ht, hsteps, hn, k, hk⟩

end BetaReduction

end LambdaCalc
