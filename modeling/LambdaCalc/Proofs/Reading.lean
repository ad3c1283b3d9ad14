import LambdaCalc.Reader.Statement
import LambdaCalc.Proofs.Building
import LambdaCalc.Proofs.Execution

namespace LambdaCalc

namespace Fresh

variable {α β : Type}

/-- No identity is given back to the supply. -/
def Grows (work : Fresh α) : Prop := ∀ s, s.id ≤ (work s).2.id

end Fresh

/-- What reading may do to a reader: take from the text and draw from the supply. -/
structure Reader.Keeps (r r' : Reader) : Prop where
  program : r'.program = r.program
  budget : r'.budget = r.budget
  patience : r'.patience = r.patience
  le : r.supply.id ≤ r'.supply.id

namespace Reader.Keeps

variable {r r₁ r₂ : Reader}

theorem refl (r : Reader) : r.Keeps r := ⟨rfl, rfl, rfl, Nat.le_refl r.supply.id⟩

theorem trans (h : r.Keeps r₁) (h' : r₁.Keeps r₂) : r.Keeps r₂ :=
  ⟨h'.program.trans h.program, h'.budget.trans h.budget, h'.patience.trans h.patience,
    Nat.le_trans h.le h'.le⟩

theorem draw {s : Supply} (h : r.supply.id ≤ s.id) : r.Keeps { r with supply := s } :=
  ⟨rfl, rfl, rfl, h⟩

end Reader.Keeps

namespace Read

variable {α β : Type} {work : Read α} {next : α → Read β} {r r' : Reader}

theorem bind_eq_ok {b : β} (h : (work >>= next) r = .ok b r') :
    ∃ a r₁, work r = .ok a r₁ ∧ next a r₁ = .ok b r' := by
  change EStateM.bind work next r = _ at h
  rw [EStateM.bind] at h
  cases hw : work r with
  | ok a r₁ =>
    rw [hw] at h
    exact ⟨a, r₁, rfl, h⟩
  | error e r₁ =>
    rw [hw] at h
    cases h

theorem bind_eq_error {e : Error} (h : (work >>= next) r = .error e r') :
    work r = .error e r' ∨ ∃ a r₁, work r = .ok a r₁ ∧ next a r₁ = .error e r' := by
  change EStateM.bind work next r = _ at h
  rw [EStateM.bind] at h
  cases hw : work r with
  | ok a r₁ =>
    rw [hw] at h
    exact .inr ⟨a, r₁, rfl, h⟩
  | error e₁ r₁ =>
    rw [hw] at h
    cases h
    exact .inl rfl

theorem bind_of_ok {a : α} {r₁ : Reader} (h : work r = .ok a r₁) :
    (work >>= next) r = next a r₁ := by
  change EStateM.bind work next r = _
  rw [EStateM.bind, h]

theorem bind_of_error {e : Error} {r₁ : Reader} (h : work r = .error e r₁) :
    (work >>= next) r = .error e r₁ := by
  change EStateM.bind work next r = _
  rw [EStateM.bind, h]

theorem ofAttempt_eq_ok {work : Attempt α} {a : α} (h : ofAttempt work r = .ok a r') :
    ∃ s, work r.supply = .ok a s ∧ r' = { r with supply := s } := by
  rw [ofAttempt] at h
  split at h
  · next s hw =>
    cases h
    exact ⟨s, hw, rfl⟩
  · cases h

theorem ofAttempt_eq_error {work : Attempt α} {e : Error} (h : ofAttempt work r = .error e r') :
    ∃ s, work r.supply = .error e s ∧ r' = { r with supply := s } := by
  rw [ofAttempt] at h
  split at h
  · cases h
  · next s hw =>
    cases h
    exact ⟨s, hw, rfl⟩

/-- The error with which some work stops, and the reader that it leaves. -/
def stops? (work : Read α) (r : Reader) : Option (Error × Reader) :=
  match work r with
  | .ok _ _ => none
  | .error e r' => some (e, r')

theorem stops?_eq_some_iff {e : Error} :
    stops? work r = some (e, r') ↔ work r = .error e r' := by
  rw [stops?]
  cases work r with
  | ok a r₁ => simp
  | error e₁ r₁ => simp

/-- What some work answers, and the reader that it leaves. -/
def answers? (work : Read α) (r : Reader) : Option (α × Reader) :=
  match work r with
  | .ok a r' => some (a, r')
  | .error _ _ => none

theorem answers?_eq_some_iff {a : α} :
    answers? work r = some (a, r') ↔ work r = .ok a r' := by
  rw [answers?]
  cases work r with
  | ok a r₁ => simp
  | error e₁ r₁ => simp

theorem current_bind (next : Token → Read β) (r : Reader) :
    (current >>= next) r = next r.current r := rfl

theorem room_bind (next : List Char → Read β) (r : Reader) :
    (room >>= next) r = next r.source.room r := rfl

/-- Work that only draws never fails. -/
theorem liftM_fresh (work : Fresh α) (r : Reader) :
    (liftM work : Read α) r = .ok (work r.supply).1 { r with supply := (work r.supply).2 } := rfl

/-- Some work leaves the program and the settings alone, whether it fails or not. -/
def Frames (work : Read α) : Prop :=
  ∀ r, match work r with
    | .ok _ r' => r.Keeps r'
    | .error _ r' => r.Keeps r'

theorem Frames.keeps_of_ok (h : Frames work) {a : α} (hw : work r = .ok a r') : r.Keeps r' := by
  have hr := h r
  rwa [hw] at hr

theorem Frames.keeps_of_error (h : Frames work) {e : Error} (hw : work r = .error e r') :
    r.Keeps r' := by
  have hr := h r
  rwa [hw] at hr

theorem Frames.bind (hw : Frames work) (hn : ∀ a, Frames (next a)) : Frames (work >>= next) := by
  intro r
  cases h : (work >>= next) r with
  | ok b r' =>
    obtain ⟨a, r₁, h₁, h₂⟩ := bind_eq_ok h
    exact (hw.keeps_of_ok h₁).trans ((hn a).keeps_of_ok h₂)
  | error e r' =>
    rcases bind_eq_error h with h₁ | ⟨a, r₁, h₁, h₂⟩
    · exact hw.keeps_of_error h₁
    · exact (hw.keeps_of_ok h₁).trans ((hn a).keeps_of_error h₂)

theorem frames_pure (a : α) : Frames (pure a) := Reader.Keeps.refl

theorem frames_throw (e : Error) : Frames (throw e : Read α) := Reader.Keeps.refl

theorem frames_get : Frames get := Reader.Keeps.refl

theorem frames_current : Frames current := Reader.Keeps.refl

theorem frames_advance : Frames advance := by
  intro r
  rw [advance]
  cases r.source.next.1 <;> exact ⟨rfl, rfl, rfl, Nat.le_refl r.supply.id⟩

theorem frames_fresh {work : Fresh α} (h : work.Grows) : Frames (liftM work : Read α) := by
  intro r
  rw [liftM_fresh]
  exact .draw (h r.supply)

theorem frames_ofAttempt {work : Attempt α} (h : ∀ s, s.id ≤ (work.leaves s).id) :
    Frames (ofAttempt work) := by
  intro r
  have hs := h r.supply
  rw [Attempt.leaves] at hs
  rw [ofAttempt]
  cases hw : work r.supply with
  | ok a s =>
    rw [hw] at hs
    exact .draw hs
  | error e s =>
    rw [hw] at hs
    exact .draw hs

theorem frames_refuse (wanted : Expectation) : Frames (refuse wanted : Read α) :=
  frames_current.bind fun _ => frames_throw _

theorem frames_expect (operator : Operator) (wanted : Expectation) :
    Frames (expect operator wanted) := by
  refine frames_current.bind fun token => ?_
  split
  · exact frames_advance
  · exact frames_refuse wanted

theorem frames_identifier (wanted : Expectation) : Frames (identifier wanted) := by
  refine frames_current.bind fun token => ?_
  split
  · exact frames_advance.bind fun _ => frames_pure _
  · exact frames_refuse wanted

theorem frames_name (wanted : Expectation) : Frames (name wanted) := by
  refine frames_current.bind fun token => ?_
  split
  · exact frames_advance.bind fun _ => frames_pure _
  · exact frames_refuse wanted

theorem frames_count (digits : String) : Frames (count digits) := by
  rw [count]
  split
  · exact frames_pure _
  · exact frames_throw _

theorem grows_numeral (n : Nat) : (Term.numeral n).Grows := by
  intro s
  rw [(Term.numeral_built [] n s (Nat.le_refl s.id)).2]
  exact Nat.le_add_right s.id 2

theorem grows_truth (value : Bool) : (Term.truth value).Grows := fun s => Nat.le_add_right s.id 2

theorem grows_refresh (t : Term) : t.refresh.Grows := fun s => (Term.refresh_copied t s).drawn.le

theorem frames_numeral (digits : String) : Frames (numeral digits) := by
  refine (frames_count digits).bind fun n => ?_
  split
  · exact frames_throw _
  · exact frames_fresh (grows_numeral n)

theorem frames_occurrence (scope : List Variable) (word : String) :
    Frames (occurrence scope word) := by
  rw [occurrence]
  split
  · exact frames_fresh fun s => Nat.le_refl s.id
  · refine (frames_fresh fun s => Nat.le_succ s.id).bind fun v => ?_
    exact frames_fresh fun s => Nat.le_refl s.id

theorem frames_expansion (name : String) : Frames (expansion name) := by
  refine frames_get.bind fun r => ?_
  split
  · next c _ =>
    refine (frames_ofAttempt (c.le_leaves_execute r.patience)).bind fun t => ?_
    exact frames_fresh (grows_refresh t)
  · exact frames_throw _

/-- An expansion is a copy of the outcome of the command behind the name. -/
theorem expansion_eq_ok {word : String} {t : Term} (h : expansion word r = .ok t r') :
    ∃ c u s, r.program.get? word = some c ∧ c.execute r.patience r.supply = .ok u s ∧
      t = (u.refresh s).1 ∧ r' = { r with supply := (u.refresh s).2 } := by
  obtain ⟨r₁, r₂, hg, h⟩ := bind_eq_ok h
  cases hg
  cases hc : r.program.get? word with
  | none =>
    rw [hc] at h
    cases h
  | some c =>
    rw [hc] at h
    obtain ⟨u, r₁, hu, h⟩ := bind_eq_ok h
    obtain ⟨s, he, rfl⟩ := ofAttempt_eq_ok hu
    cases h
    exact ⟨c, u, s, rfl, he, rfl, rfl⟩

theorem frames_expressionWithin (room : List Char) (scope : List Variable) :
    Frames (expressionWithin room scope) := by
  induction room generalizing scope with
  | nil => exact frames_throw _
  | cons _ room ih =>
    refine frames_current.bind fun token => ?_
    split
    · refine frames_advance.bind fun _ => (frames_identifier _).bind fun word => ?_
      refine (frames_expect _ _).bind fun _ => ?_
      refine (frames_fresh fun s => Nat.le_succ s.id).bind fun head => ?_
      exact (ih _).bind fun body => frames_fresh fun s => Nat.le_refl s.id
    · refine frames_advance.bind fun _ => (ih scope).bind fun fn => ?_
      refine (frames_expect _ _).bind fun _ => frames_current.bind fun token => ?_
      split
      · exact (ih scope).bind fun arg => frames_fresh fun s => Nat.le_refl s.id
      · exact frames_pure fn
    · exact frames_advance.bind fun _ => frames_occurrence scope _
    · exact frames_advance.bind fun _ => frames_numeral _
    · exact frames_advance.bind fun _ => frames_fresh (grows_truth _)
    · exact frames_advance.bind fun _ => frames_expansion _
    · exact frames_refuse _

theorem frames_wholeExpression : Frames wholeExpression := by
  have hroom : Frames room := Reader.Keeps.refl
  refine hroom.bind fun room => frames_advance.bind fun _ => ?_
  refine (frames_expressionWithin room []).bind fun t => frames_current.bind fun token => ?_
  split
  · exact frames_pure t
  · exact frames_refuse _

theorem frames_stepCount : Frames stepCount := by
  refine frames_current.bind fun token => ?_
  split
  · exact frames_advance.bind fun _ => frames_count _
  · exact frames_advance.bind fun _ => frames_pure _
  · exact frames_pure 1

theorem frames_beta : Frames beta := by
  refine frames_stepCount.bind fun steps => (frames_expect _ _).bind fun _ => ?_
  exact frames_get.bind fun r => frames_pure _

theorem frames_alpha : Frames alpha := by
  refine (frames_identifier _).bind fun old => (frames_expect _ _).bind fun _ => ?_
  exact (frames_identifier _).bind fun new => frames_pure _

theorem frames_conversion : Frames conversion := by
  refine frames_current.bind fun token => ?_
  split
  · exact frames_beta
  · exact frames_beta
  · exact frames_beta
  · exact frames_alpha
  · exact frames_pure _

theorem frames_command (room : List Char) : Frames (command room) :=
  (frames_expressionWithin room []).bind fun _ => frames_conversion.bind fun _ => frames_pure _

theorem frames_firstToken (room : List Char) : Frames (firstToken room) := by
  induction room with
  | nil => exact frames_throw _
  | cons _ room ih =>
    refine frames_advance.bind fun _ => frames_current.bind fun token => ?_
    split
    · exact ih
    · exact frames_pure token

end Read

namespace Term

variable {text : String} {s s' : Supply}

/-- A reader of a text in which no name stands for anything. -/
def readerOf (text : String) (s : Supply) : Reader where
  source := { input := text.toList }
  supply := s
  budget := 0
  patience := 0

theorem ofText_ok_iff_read {t : Term} : ofText text s = .ok t s' ↔
    ∃ r', Read.wholeExpression (readerOf text s) = .ok t r' ∧ r'.supply = s' := by
  constructor
  · intro h
    rw [ofText] at h
    split at h
    · next r' hr =>
      cases h
      exact ⟨r', hr, rfl⟩
    · cases h
  · rintro ⟨r', hr, rfl⟩
    rw [ofText]
    split
    · next hu =>
      cases hu.symm.trans hr
      rfl
    · next hu => cases hu.symm.trans hr

theorem ofText_error_iff_read {e : Error} : ofText text s = .error e s' ↔
    ∃ r', Read.wholeExpression (readerOf text s) = .error e r' ∧ r'.supply = s' := by
  constructor
  · intro h
    rw [ofText] at h
    split at h
    · cases h
    · next r' hr =>
      cases h
      exact ⟨r', hr, rfl⟩
  · rintro ⟨r', hr, rfl⟩
    rw [ofText]
    split
    · next hu => cases hu.symm.trans hr
    · next hu =>
      cases hu.symm.trans hr
      rfl

end Term

end LambdaCalc
