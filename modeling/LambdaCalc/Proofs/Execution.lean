import LambdaCalc.Proofs.Renaming

namespace LambdaCalc

namespace Attempt

variable {α : Type}

/-- What some work answers, without what it drew. -/
def outcome (work : Attempt α) (s : Supply) : Except Error α :=
  match work s with
  | .ok a _ => .ok a
  | .error e _ => .error e

/-- The supply after some work, whether it failed or not. -/
def leaves (work : Attempt α) (s : Supply) : Supply :=
  match work s with
  | .ok _ s' => s'
  | .error _ s' => s'

end Attempt

open Term

namespace BetaReduction

/-- One round of a reduction: the three ways out come before the next round. -/
theorem proceed_succ (b : BetaReduction) (rounds done : Nat) (t : Term) (s : Supply) :
    b.proceed (rounds + 1) done t s =
      match (t.step? s).1 with
      | none => .ok t (t.step? s).2
      | some next =>
        if b.budget ≠ 0 ∧ done = b.budget then
          if b.steps = 0 then .error (.budgetExceeded b.budget) (t.step? s).2
          else .ok t (t.step? s).2
        else if b.steps ≠ 0 ∧ done + 1 = b.steps then .ok next (t.step? s).2
        else b.proceed rounds (done + 1) next (t.step? s).2 := by
  have he : b.proceed (rounds + 1) done t s = (match (t.step? s).1 with
      | none => return t
      | some next =>
        if b.budget ≠ 0 ∧ done = b.budget then
          if b.steps = 0 then throw (.budgetExceeded b.budget) else return t
        else if b.steps ≠ 0 ∧ done + 1 = b.steps then return next
        else b.proceed rounds (done + 1) next : Attempt Term) (t.step? s).2 := rfl
  rw [he]
  cases (t.step? s).1 with
  | none => rfl
  | some next =>
    simp only
    repeat' split
    all_goals rfl

/-- What every step keeps, and growing supplies as well, holds of the outcome of a reduction. -/
theorem proceed_keeps (keeps : Nat → Term → Prop) {b : BetaReduction} {rounds done : Nat}
    {t u : Term} {s s' : Supply}
    (hstep : ∀ {c d : Nat} {t t' : Term}, keeps c t → Reduced c d t t' → keeps d t')
    (hgrow : ∀ {c d : Nat} {t : Term}, c ≤ d → keeps c t → keeps d t) (ht : keeps s.id t)
    (h : b.proceed rounds done t s = .ok u s') : keeps s'.id u := by
  induction rounds generalizing done t s with
  | zero => cases h
  | succ rounds ih =>
    rw [proceed_succ] at h
    rcases step?_spec t s with ⟨_, hs⟩ | ⟨next, s₁, _, hs, hred⟩
    · rw [hs] at h
      cases h
      exact ht
    · have hnext := hstep ht hred
      simp only [hs] at h
      split at h
      · split at h
        · cases h
        · cases h
          exact hgrow hred.headsFrom.le ht
      · split at h
        · cases h
          exact hnext
        · exact ih hnext h

/-- A reduction brings no free variable that the term does not have. -/
theorem freeFrom_of_proceed {b : BetaReduction} {rounds done : Nat} {t u : Term} {s s' : Supply}
    (h : b.proceed rounds done t s = .ok u s') : FreeFrom t u := by
  refine proceed_keeps (fun _ u => FreeFrom t u) ?_ (fun _ ht => ht) (FreeFrom.refl t) h
  intro c d u u' hu hred v hv hb
  exact hu v (hred.free_mem v hv hb) hb

theorem proceed_ok {b : BetaReduction} {rounds done : Nat} {t u : Term} {s s' : Supply}
    (h : b.proceed rounds done t s = .ok u s') (ht : t.WellFormed s.id) :
    u.WellFormed s'.id ∧ FreeFrom t u :=
  ⟨proceed_keeps (fun c u => u.WellFormed c) (fun ht hred => hred.wellFormed ht)
      (fun hle ht => ht.mono hle) ht h,
    freeFrom_of_proceed h⟩

theorem le_leaves_proceed (b : BetaReduction) (rounds done : Nat) (t : Term) (s : Supply) :
    s.id ≤ ((b.proceed rounds done t).leaves s).id := by
  induction rounds generalizing done t s with
  | zero => exact Nat.le_refl s.id
  | succ rounds ih =>
    have hrun := proceed_succ b rounds done t s
    rcases step?_spec t s with ⟨_, hs⟩ | ⟨next, s₁, _, hs, hred⟩
    · rw [hs] at hrun
      have hleaves : (b.proceed (rounds + 1) done t).leaves s = s := by
        rw [Attempt.leaves, hrun]
      exact Nat.le_of_eq (congrArg Supply.id hleaves.symm)
    · have hle := hred.headsFrom.le
      simp only [hs] at hrun
      split at hrun
      · split at hrun
        · rw [Attempt.leaves, hrun]
          exact hle
        · rw [Attempt.leaves, hrun]
          exact hle
      · split at hrun
        · rw [Attempt.leaves, hrun]
          exact hle
        · rw [Attempt.leaves, hrun]
          exact Nat.le_trans hle (ih (done + 1) next s₁)

theorem proceed_error {b : BetaReduction} {rounds done : Nat} {t : Term} {s s' : Supply}
    {e : Error} (h : b.proceed rounds done t s = .error e s') :
    e = .budgetExceeded b.budget ∨ e = .unfinished := by
  induction rounds generalizing done t s with
  | zero =>
    cases h
    exact .inr rfl
  | succ rounds ih =>
    rw [proceed_succ] at h
    split at h
    · cases h
    · split at h
      · split at h
        · cases h
          exact .inl rfl
        · cases h
      · split at h
        · cases h
        · exact ih h

end BetaReduction

namespace Command

theorem execute_ok {patience : Nat} {c : Command} {u : Term} {s s' : Supply}
    (h : c.execute patience s = .ok u s') (hc : c.term.WellFormed s.id) :
    u.WellFormed s'.id ∧ FreeFrom c.term u := by
  obtain ⟨t, conversion⟩ := c
  cases conversion with
  | identity =>
    cases h
    exact ⟨hc, FreeFrom.refl _⟩
  | alpha old new =>
    change t.rename old new s = .ok u s' at h
    obtain ⟨s₁, hid, hs | ⟨t', hr, hs⟩ | hs⟩ := rename_spec old new t s
    · rw [hs] at h
      cases h
      exact ⟨hid ▸ hc, FreeFrom.refl _⟩
    · rw [hs] at h
      cases h
      exact ⟨hid ▸ hr.wellFormed hc, hr.free_mem hc.flagged⟩
    · rw [hs] at h
      cases h
  | beta b => exact BetaReduction.proceed_ok h hc

/-- A command fails over a name or over the number of steps. -/
theorem execute_error {patience : Nat} {c : Command} {s s' : Supply} {e : Error}
    (h : c.execute patience s = .error e s') :
    (∃ old new, e = .nameClash old new) ∨ (∃ budget, e = .budgetExceeded budget) ∨
      e = .unfinished := by
  obtain ⟨t, conversion⟩ := c
  cases conversion with
  | identity => cases h
  | alpha old new =>
    change t.rename old new s = .error e s' at h
    obtain ⟨s₁, _, hs | ⟨t', _, hs⟩ | hs⟩ := rename_spec old new t s
    · rw [hs] at h
      cases h
    · rw [hs] at h
      cases h
    · rw [hs] at h
      cases h
      exact .inl ⟨old, new, rfl⟩
  | beta b =>
    rcases BetaReduction.proceed_error h with he | he
    · exact .inr (.inl ⟨b.budget, he⟩)
    · exact .inr (.inr he)

theorem le_leaves_execute (patience : Nat) (c : Command) (s : Supply) :
    s.id ≤ ((c.execute patience).leaves s).id := by
  obtain ⟨t, conversion⟩ := c
  cases conversion with
  | identity => exact Nat.le_refl s.id
  | alpha old new =>
    change s.id ≤ ((t.rename old new).leaves s).id
    obtain ⟨s₁, hid, hs | ⟨t', hr, hs⟩ | hs⟩ := rename_spec old new t s
    all_goals
      rw [Attempt.leaves, hs]
      exact Nat.le_of_eq hid.symm
  | beta b => exact b.le_leaves_proceed _ 0 t s

end Command

end LambdaCalc
