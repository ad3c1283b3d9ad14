import LambdaCalc.Proofs.Execution
import LambdaCalc.Reader.Statement
import Mathlib.Data.ENat.Lattice

namespace LambdaCalc

namespace Term

/-- Takes one step after the other, each of them from the supply that the last one left. -/
def stepTimes : Nat → Term → Fresh Term
  | 0, t => return t
  | n + 1, t => do stepTimes n (← t.step)

theorem stepTimes_succ (n : Nat) (t : Term) (s : Supply) :
    t.stepTimes (n + 1) s = (t.stepTimes n s).1.step (t.stepTimes n s).2 := by
  induction n generalizing t s with
  | zero => rfl
  | succ n ih => exact ih (t.step s).1 (t.step s).2

open Classical in
/-- How many steps it takes to the first term without a redex, which may never be met. -/
noncomputable def stepsToNormal (t : Term) (s : Supply) : ℕ∞ :=
  if h : ∃ k, (t.stepTimes k s).1.hasRedex = false then (Nat.find h : ℕ) else ⊤

theorem hasRedex_of_lt_stepsToNormal {t : Term} {s : Supply} {i : ℕ}
    (h : (i : ℕ∞) < t.stepsToNormal s) : (t.stepTimes i s).1.hasRedex = true := by
  by_contra hr
  have hn : ∃ k, (t.stepTimes k s).1.hasRedex = false := ⟨i, by simpa using hr⟩
  simp only [stepsToNormal, hn, dif_pos, Nat.cast_lt] at h
  exact Nat.find_min hn h (by simpa using hr)

theorem normal_of_stepsToNormal_eq {t : Term} {s : Supply} {k : ℕ}
    (h : t.stepsToNormal s = k) : (t.stepTimes k s).1.hasRedex = false := by
  by_cases hn : ∃ k, (t.stepTimes k s).1.hasRedex = false
  · simp only [stepsToNormal, hn, dif_pos, Nat.cast_inj] at h
    exact h ▸ Nat.find_spec hn
  · simp [stepsToNormal, hn] at h

theorem stepsToNormal_eq {t : Term} {s : Supply} {k : ℕ}
    (hr : ∀ i < k, (t.stepTimes i s).1.hasRedex = true)
    (hk : (t.stepTimes k s).1.hasRedex = false) : t.stepsToNormal s = k := by
  have hn : ∃ k, (t.stepTimes k s).1.hasRedex = false := ⟨k, hk⟩
  have hfind : Nat.find hn = k := by
    rw [Nat.find_eq_iff]
    refine ⟨hk, fun i hi => ?_⟩
    simp [hr i hi]
  simp only [stepsToNormal, hn, dif_pos, hfind]

end Term

namespace BetaReduction

/-- A run that meets no way out for `j` steps is where those steps lead. -/
theorem proceed_stepTimes (b : BetaReduction) (rounds j done : Nat) (t : Term) (s : Supply)
    (hr : ∀ i < j, (t.stepTimes i s).1.hasRedex = true)
    (hm : ∀ i < j, b.budget ≠ 0 → done + i ≠ b.budget)
    (hn : ∀ i < j, b.steps ≠ 0 → done + i + 1 ≠ b.steps) :
    b.proceed (rounds + j) done t s =
      b.proceed rounds (done + j) (t.stepTimes j s).1 (t.stepTimes j s).2 := by
  induction j generalizing rounds with
  | zero => rfl
  | succ j ih =>
    have hlast : j < j + 1 := Nat.lt_succ_self j
    have hj := ih (rounds + 1) (fun i hi => hr i (hi.trans hlast))
      (fun i hi => hm i (hi.trans hlast)) (fun i hi => hn i (hi.trans hlast))
    have he : rounds + (j + 1) = rounds + 1 + j := by omega
    rw [he, hj, proceed_succ, Term.step?_of_hasRedex (hr j hlast), Term.stepTimes_succ]
    simp only
    rw [if_neg fun h => hm j hlast h.1 h.2, if_neg fun h => hn j hlast h.1 h.2]
    rfl

/-- The first way out: the term has no redex. -/
theorem outcome_of_normal (b : BetaReduction) (rounds j : Nat) (t : Term) (s : Supply)
    (hj : j < rounds) (hr : ∀ i < j, (t.stepTimes i s).1.hasRedex = true)
    (hk : (t.stepTimes j s).1.hasRedex = false) (hm : b.budget ≠ 0 → j ≤ b.budget)
    (hn : b.steps ≠ 0 → j < b.steps) :
    (b.proceed rounds 0 t).outcome s = .ok (t.stepTimes j s).1 := by
  obtain ⟨rest, rfl⟩ : ∃ rest, rounds = rest + 1 + j := ⟨rounds - 1 - j, by omega⟩
  have hp := b.proceed_stepTimes (rest + 1) j 0 t s hr
    (fun i hi h => by have := hm h; omega) (fun i hi h => by have := hn h; omega)
  rw [Attempt.outcome, hp, proceed_succ, Term.step?_of_normal hk]

/-- The second way out: the budget is used up. -/
theorem outcome_of_budget (b : BetaReduction) (rounds : Nat) (t : Term) (s : Supply)
    (hb : b.budget ≠ 0) (hj : b.budget < rounds)
    (hr : ∀ i ≤ b.budget, (t.stepTimes i s).1.hasRedex = true)
    (hn : b.steps ≠ 0 → b.budget < b.steps) :
    (b.proceed rounds 0 t).outcome s =
      if b.steps = 0 then .error (.budgetExceeded b.budget)
      else .ok (t.stepTimes b.budget s).1 := by
  obtain ⟨rest, rfl⟩ : ∃ rest, rounds = rest + 1 + b.budget := ⟨rounds - 1 - b.budget, by omega⟩
  have hp := b.proceed_stepTimes (rest + 1) b.budget 0 t s (fun i hi => hr i hi.le)
    (fun i hi _ => by omega) (fun i hi h => by have := hn h; omega)
  rw [Attempt.outcome, hp, proceed_succ, Term.step?_of_hasRedex (hr _ le_rfl)]
  simp only [Nat.zero_add, and_true, ne_eq, hb, not_false_eq_true, if_true]
  split_ifs <;> rfl

/-- The third way out: all steps are done. -/
theorem outcome_of_steps (b : BetaReduction) (rounds : Nat) (t : Term) (s : Supply)
    (hb : b.steps ≠ 0) (hj : b.steps ≤ rounds)
    (hr : ∀ i < b.steps, (t.stepTimes i s).1.hasRedex = true)
    (hm : b.budget ≠ 0 → b.steps ≤ b.budget) :
    (b.proceed rounds 0 t).outcome s = .ok (t.stepTimes b.steps s).1 := by
  obtain ⟨last, hlast⟩ : ∃ last, b.steps = last + 1 := ⟨b.steps - 1, by omega⟩
  obtain ⟨rest, rfl⟩ : ∃ rest, rounds = rest + 1 + last := ⟨rounds - b.steps, by omega⟩
  have hp := b.proceed_stepTimes (rest + 1) last 0 t s (fun i hi => hr i (by omega))
    (fun i hi h => by have := hm h; omega) (fun i hi _ => by omega)
  rw [Attempt.outcome, hp, proceed_succ, Term.step?_of_hasRedex (hr last (by omega)), hlast,
    Term.stepTimes_succ]
  simp only
  rw [if_neg fun h => by have := hm h.1; omega, if_pos ⟨Nat.succ_ne_zero last, by omega⟩]

/-- With a number of steps there is always an answer: it is reached after that number of steps, at
the normal form or at the budget, whichever comes first. -/
theorem outcome_execute_of_pos (n m patience : Nat) (t : Term) (s : Supply) (hn : 0 < n) :
    ∃ j : ℕ, (j : ℕ∞) = min (min (n : ℕ∞) (t.stepsToNormal s)) (if m = 0 then ⊤ else (m : ℕ∞)) ∧
      ((⟨n, m⟩ : BetaReduction).execute patience t).outcome s = .ok (t.stepTimes j s).1 := by
  have hn0 : n ≠ 0 := by omega
  have hrounds : (⟨n, m⟩ : BetaReduction).rounds patience = n := by simp [rounds, hn0]
  rw [execute, hrounds]
  by_cases hm : m ≠ 0 ∧ m < n ∧ (m : ℕ∞) < t.stepsToNormal s
  · obtain ⟨hm0, hmn, hmk⟩ := hm
    have hmn' : (m : ℕ∞) ≤ n := Nat.cast_le.mpr hmn.le
    refine ⟨m, by rw [if_neg hm0, min_eq_right (le_min hmn' hmk.le)], ?_⟩
    have ho := outcome_of_budget ⟨n, m⟩ n t s hm0 hmn
      (fun i hi => Term.hasRedex_of_lt_stepsToNormal
        ((Nat.cast_le.mpr hi).trans_lt hmk)) (fun _ => hmn)
    simpa [hn0] using ho
  · by_cases hk : (n : ℕ∞) ≤ t.stepsToNormal s
    · have hnm : m ≠ 0 → n ≤ m := by
        intro hm0
        by_contra hlt
        exact hm ⟨hm0, by omega, (Nat.cast_lt.mpr (by omega)).trans_le hk⟩
      refine ⟨n, ?_, outcome_of_steps ⟨n, m⟩ n t s hn0 le_rfl
        (fun i hi => Term.hasRedex_of_lt_stepsToNormal ((Nat.cast_lt.mpr hi).trans_le hk)) hnm⟩
      rw [min_eq_left hk]
      split_ifs with hm0
      · exact (min_eq_left le_top).symm
      · exact (min_eq_left (Nat.cast_le.mpr (hnm hm0))).symm
    · obtain ⟨k, hkk⟩ := ENat.ne_top_iff_exists.mp (ne_top_of_lt (not_le.mp hk))
      rw [← hkk] at hm hk ⊢
      have hkn : k < n := Nat.cast_lt.mp (not_le.mp hk)
      have hkm : m ≠ 0 → k ≤ m := by
        intro hm0
        by_contra hlt
        exact hm ⟨hm0, by omega, Nat.cast_lt.mpr (by omega)⟩
      refine ⟨k, ?_, outcome_of_normal ⟨n, m⟩ n k t s hkn
        (fun i hi => Term.hasRedex_of_lt_stepsToNormal (hkk ▸ Nat.cast_lt.mpr hi))
        (Term.normal_of_stepsToNormal_eq hkk.symm) hkm fun _ => hkn⟩
      rw [min_eq_right (Nat.cast_le.mpr hkn.le)]
      split_ifs with hm0
      · exact (min_eq_left le_top).symm
      · exact (min_eq_left (Nat.cast_le.mpr (hkm hm0))).symm

/-- A reduction to normal form finds it, if it needs no more rounds than there are. -/
theorem outcome_execute_of_normal (m k patience : Nat) (t : Term) (s : Supply)
    (hk : t.stepsToNormal s = k) (hm : if m = 0 then k < patience else k ≤ m) :
    ((⟨0, m⟩ : BetaReduction).execute patience t).outcome s = .ok (t.stepTimes k s).1 := by
  have hrounds : k < (⟨0, m⟩ : BetaReduction).rounds patience := by
    simp only [rounds, ne_eq, not_true_eq_false, if_false]
    split_ifs at hm ⊢ <;> omega
  refine outcome_of_normal ⟨0, m⟩ _ k t s hrounds
    (fun i hi => Term.hasRedex_of_lt_stepsToNormal (hk ▸ Nat.cast_lt.mpr hi))
    (Term.normal_of_stepsToNormal_eq hk) ?_ (fun h => absurd rfl h)
  intro hm0
  simpa [show m ≠ 0 from hm0] using hm

theorem outcome_execute_of_budget_lt (m patience : Nat) (t : Term) (s : Supply) (hm : m ≠ 0)
    (hk : (m : ℕ∞) < t.stepsToNormal s) :
    ((⟨0, m⟩ : BetaReduction).execute patience t).outcome s = .error (.budgetExceeded m) := by
  have hrounds : (⟨0, m⟩ : BetaReduction).rounds patience = m + 1 := by simp [rounds, hm]
  rw [execute, hrounds]
  exact outcome_of_budget ⟨0, m⟩ (m + 1) t s hm (Nat.lt_succ_self m)
    (fun i hi => Term.hasRedex_of_lt_stepsToNormal ((Nat.cast_le.mpr hi).trans_lt hk))
    (fun h => absurd rfl h)

/-- No answer changes when a number of steps above the budget is lowered to it. -/
theorem outcome_execute_clamp (n m patience : Nat) (t : Term) (s : Supply) :
    ((⟨Read.clamp m n, m⟩ : BetaReduction).execute patience t).outcome s =
      ((⟨n, m⟩ : BetaReduction).execute patience t).outcome s := by
  by_cases h : m ≠ 0 ∧ m < n
  · obtain ⟨hm0, hmn⟩ := h
    have hclamp : Read.clamp m n = m := if_pos ⟨hm0, hmn⟩
    obtain ⟨i, hi, hoi⟩ := outcome_execute_of_pos m m patience t s (by omega)
    obtain ⟨j, hj, hoj⟩ := outcome_execute_of_pos n m patience t s (by omega)
    have hmn' : (m : ℕ∞) ≤ n := Nat.cast_le.mpr hmn.le
    have hij : (i : ℕ∞) = j := by
      rw [hi, hj, if_neg hm0, min_right_comm, min_self, min_right_comm, min_eq_right hmn']
    rw [hclamp, hoi, hoj, Nat.cast_inj.mp hij]
  · have hclamp : Read.clamp m n = n := if_neg h
    rw [hclamp]

/-- The outcome of a reduction by `n` steps within the budget `m`, where the normal form is `k`
steps away. A number of steps never fails. Without one the normal form is found if the budget
allows `k` steps, and without a budget, if there is a normal form, with enough patience. -/
theorem outcome_execute (n m patience : Nat) (t : Term) (s : Supply) :
    (0 < n → ∃ j : ℕ,
      (j : ℕ∞) = min (min (n : ℕ∞) (t.stepsToNormal s)) (if m = 0 then ⊤ else (m : ℕ∞)) ∧
      ((⟨n, m⟩ : BetaReduction).execute patience t).outcome s = .ok (t.stepTimes j s).1) ∧
    (m ≠ 0 → ∀ k : ℕ, t.stepsToNormal s = k → k ≤ m →
      (t.stepTimes k s).1.hasRedex = false ∧
      ((⟨0, m⟩ : BetaReduction).execute patience t).outcome s = .ok (t.stepTimes k s).1) ∧
    (m ≠ 0 → m < t.stepsToNormal s →
      ((⟨0, m⟩ : BetaReduction).execute patience t).outcome s = .error (.budgetExceeded m)) ∧
    (∀ k : ℕ, t.stepsToNormal s = k → k < patience →
      (t.stepTimes k s).1.hasRedex = false ∧
      ((⟨0, 0⟩ : BetaReduction).execute patience t).outcome s = .ok (t.stepTimes k s).1) ∧
    ((⟨Read.clamp m n, m⟩ : BetaReduction).execute patience t).outcome s =
      ((⟨n, m⟩ : BetaReduction).execute patience t).outcome s := by
  refine ⟨outcome_execute_of_pos n m patience t s, ?_,
    outcome_execute_of_budget_lt m patience t s, ?_, outcome_execute_clamp n m patience t s⟩
  · intro hm k hk hkm
    exact ⟨Term.normal_of_stepsToNormal_eq hk,
      outcome_execute_of_normal m k patience t s hk (by simpa [hm] using hkm)⟩
  · intro k hk hkp
    exact ⟨Term.normal_of_stepsToNormal_eq hk,
      outcome_execute_of_normal 0 k patience t s hk (by simpa using hkp)⟩

/-- A function that drops its second argument, which has no normal form. -/
def droppedLoop : Term :=
  let x : Variable := ⟨"x", true, 0⟩
  let y : Variable := ⟨"y", true, 1⟩
  let u : Variable := ⟨"u", true, 3⟩
  let v : Variable := ⟨"v", true, 4⟩
  .app 0 (.app 1 (.lam 2 x (.lam 3 y (.var 4 x))) (.var 5 ⟨"z", false, 2⟩))
    (.app 6 (.lam 7 u (.app 8 (.var 9 u) (.var 10 u)))
      (.lam 11 v (.app 12 (.var 13 v) (.var 14 v))))

theorem outcome_execute_droppedLoop :
    let s : Supply := ⟨5, 15⟩
    let z : Term := .var 5 ⟨"z", false, 2⟩
    droppedLoop.stepsToNormal s = (2 : ℕ) ∧
      ((⟨5, 0⟩ : BetaReduction).execute 0 droppedLoop).outcome s = .ok z ∧
      ((⟨0, 2⟩ : BetaReduction).execute 0 droppedLoop).outcome s = .ok z ∧
      ((⟨0, 1⟩ : BetaReduction).execute 0 droppedLoop).outcome s = .error (.budgetExceeded 1) ∧
      ((⟨0, 0⟩ : BetaReduction).execute 3 droppedLoop).outcome s = .ok z := by
  intro s z
  have hk : droppedLoop.stepsToNormal s = (2 : ℕ) :=
    Term.stepsToNormal_eq (by decide) (by decide)
  have hz : (droppedLoop.stepTimes 2 s).1 = z := by decide
  refine ⟨hk, ?_, ?_, ?_, ?_⟩
  · obtain ⟨j, hj, ho⟩ := (outcome_execute 5 0 0 droppedLoop s).1 (by decide)
    rw [hk, if_pos rfl, min_eq_left le_top, min_eq_right (Nat.cast_le.mpr (by decide))] at hj
    rw [ho, Nat.cast_inj.mp hj, hz]
  · exact hz ▸ ((outcome_execute 0 2 0 droppedLoop s).2.1 (by decide) 2 hk le_rfl).2
  · exact (outcome_execute 0 1 0 droppedLoop s).2.2.1 (by decide) (hk ▸ by decide)
  · exact hz ▸ ((outcome_execute 0 0 3 droppedLoop s).2.2.2.1 2 hk (by decide)).2

end BetaReduction

end LambdaCalc
