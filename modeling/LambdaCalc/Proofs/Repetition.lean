import LambdaCalc.Proofs.Positions
import Mathlib.Data.Set.Function

namespace LambdaCalc

open Term

namespace Term

variable {σ τ : Nat → Nat} {t u : Term}

/-- The second term is the first one after a one-to-one renaming of identities that leaves alone
what is free. -/
def Twins (t u : Term) : Prop :=
  ∃ σ : Nat → Nat, Set.InjOn σ {i | i ∈ t.ids} ∧ t.Renumbered σ u ∧
    ∀ v ∈ t.vars, v.bound = false → v.mapId σ = v

theorem Renumbered.ids_eq (h : t.Renumbered σ u) : u.ids = t.ids.map σ := by
  simp only [ids, h.heads_eq, h.vars_eq, ← List.map_append, List.map_map]
  rfl

theorem id_mem_ids_of_vars {v : Variable} (hv : v ∈ t.vars) : v.id ∈ t.ids :=
  List.mem_map_of_mem (List.mem_append_right _ hv)

theorem id_mem_ids_of_heads {head : Variable} (hh : head ∈ t.heads) : head.id ∈ t.ids :=
  List.mem_map_of_mem (List.mem_append_left _ hh)

/-- A renaming that can be undone is undone by the same term. -/
theorem Renumbered.symm (h : t.Renumbered σ u) (hτ : ∀ i ∈ t.ids, τ (σ i) = i) :
    u.Renumbered τ t := by
  have undo {v : Variable} (hv : τ (σ v.id) = v.id) : (v.mapId σ).mapId τ = v := by
    rw [Variable.mapId, Variable.mapId, hv]
  induction h with
  | var n m v =>
    have hback := Renumbered.var (σ := τ) m n (v.mapId σ)
    rwa [undo (hτ v.id (id_mem_ids_of_vars List.mem_cons_self))] at hback
  | @lam n m head b b' _ ih =>
    have hsub : ∀ i ∈ b.ids, i ∈ (Term.lam n head b).ids := by
      simp only [ids, heads, vars, List.cons_append, List.map_cons]
      exact fun i hi => List.mem_cons_of_mem _ hi
    have hback : (Term.lam m (head.mapId σ) b').Renumbered τ
        (Term.lam n ((head.mapId σ).mapId τ) b) := .lam (ih fun i hi => hτ i (hsub i hi))
    rwa [undo (hτ head.id (id_mem_ids_of_heads List.mem_cons_self))] at hback
  | @app n m f f' a a' _ _ hf ha =>
    have hmem (i : Nat) : i ∈ (Term.app n f a).ids ↔ i ∈ f.ids ∨ i ∈ a.ids := by
      simp only [ids, heads, vars, List.map_append, List.mem_append]
      tauto
    exact .app (hf fun i hi => hτ i ((hmem i).mpr (.inl hi)))
      (ha fun i hi => hτ i ((hmem i).mpr (.inr hi)))

theorem Twins.symm (h : t.Twins u) : u.Twins t := by
  obtain ⟨σ, hinj, htu, hfree⟩ := h
  have hback : ∀ i ∈ t.ids, Function.invFunOn σ {i | i ∈ t.ids} (σ i) = i := fun i hi =>
    hinj.leftInvOn_invFunOn hi
  refine ⟨Function.invFunOn σ {i | i ∈ t.ids}, ?_, htu.symm hback, ?_⟩
  · rw [htu.ids_eq]
    intro _ hx _ hy he
    obtain ⟨i, hi, rfl⟩ := List.mem_map.mp hx
    obtain ⟨j, hj, rfl⟩ := List.mem_map.mp hy
    rw [hback i hi, hback j hj] at he
    rw [he]
  · intro w hw hb
    rw [htu.vars_eq] at hw
    obtain ⟨v, hv, rfl⟩ := List.mem_map.mp hw
    have hkeep : σ v.id = v.id := congrArg Variable.id (hfree v hv hb)
    have hundo := hback v.id (id_mem_ids_of_vars hv)
    rw [hkeep] at hundo
    rw [hfree v hv hb, Variable.mapId, hundo]

theorem ScopedIn.ids_below {bound : Nat} (h : t.ScopedIn [] bound) : ∀ i ∈ t.ids, i < bound := by
  intro i hi
  obtain ⟨w, hw, rfl⟩ := List.mem_map.mp hi
  rcases List.mem_append.mp hw with hw | hw
  · exact h.heads_below w hw
  · exact h.vars_below w hw

theorem Grafted.varIds_eq {id c d : Nat} {copy : Nat → Nat → Term → Prop}
    (h : Grafted id copy c d t u) (hcopy : ∀ c d w, copy c d w → w.vars.map Variable.id = [id]) :
    u.vars.map Variable.id = t.vars.map Variable.id := by
  induction h with
  | hit _ hid hw =>
    rw [hcopy _ _ _ hw, ← hid]
    rfl
  | miss _ => rfl
  | shadow _ => rfl
  | lam _ _ ih => exact ih
  | app _ _ hf ha => simp only [vars, List.map_append, hf, ha]

/-- A new name for a bound variable changes the identity of no occurrence. -/
theorem Renamed.varIds_eq {old new : String} {c : Nat} (h : Renamed old new c t u) :
    u.vars.map Variable.id = t.vars.map Variable.id := by
  induction h with
  | here _ _ hg =>
    refine hg.varIds_eq ?_
    rintro c d w ⟨-, k, rfl⟩
    rfl
  | lam _ _ ih => exact ih
  | fn _ ih => simp only [vars, List.map_append, ih]
  | arg _ _ ih => simp only [vars, List.map_append, ih]

theorem Renumbered.print_eq (h : t.Renumbered σ u) : t.print = u.print :=
  print_eq_of_sameNames ((sameNames_iff t u).mpr h.phrase_eq.symm)

end Term

namespace Command

variable {c : Command} {patience : Nat} {s s' : Supply}

/-- What is free in an outcome was not drawn for it. -/
theorem id_mem_ids_of_execute {u : Term} (h : c.execute patience s = .ok u s') {v : Variable}
    (hv : v ∈ u.vars) (hb : v.bound = false) : v.id ∈ c.term.ids := by
  obtain ⟨t, conversion⟩ := c
  cases conversion with
  | identity =>
    cases h
    exact id_mem_ids_of_vars hv
  | alpha old new =>
    change t.rename old new s = .ok u s' at h
    obtain ⟨s₁, _, hs | ⟨t', hr, hs⟩ | hs⟩ := rename_spec old new t s
    · rw [hs] at h
      cases h
      exact id_mem_ids_of_vars hv
    · rw [hs] at h
      cases h
      have hid := List.mem_map_of_mem (f := Variable.id) hv
      rw [hr.varIds_eq] at hid
      obtain ⟨w, hw, he⟩ := List.mem_map.mp hid
      exact he ▸ id_mem_ids_of_vars hw
    · rw [hs] at h
      cases h
  | beta b => exact id_mem_ids_of_vars (BetaReduction.freeFrom_of_proceed h v hv hb)

/-- Two outcomes of which neither tells more than the other: the same error, or terms that print
alike and are twins. -/
def SameOutcome : Except Error Term → Except Error Term → Prop
  | .ok t, .ok u => t.print = u.print ∧ t.Twins u
  | .error e, .error e' => e = e'
  | _, _ => False

theorem SameOutcome.symm {x y : Except Error Term} (h : SameOutcome x y) : SameOutcome y x := by
  cases x <;> cases y
  · exact Eq.symm h
  · exact h.elim
  · exact h.elim
  · exact ⟨h.1.symm, h.2.symm⟩

theorem SameOutcome.error_left {x y : Except Error Term} {e : Error} (h : SameOutcome x y)
    (hx : x = .error e) : y = .error e := by
  subst hx
  cases y with
  | error e' => exact congrArg Except.error (Eq.symm h)
  | ok u => exact h.elim

theorem SameOutcome.ok_left {x y : Except Error Term} {t : Term} (h : SameOutcome x y)
    (hx : x = .ok t) : ∃ u, y = .ok u ∧ t.print = u.print ∧ t.Twins u := by
  subst hx
  cases y with
  | error e => exact h.elim
  | ok u => exact ⟨u, rfl, h⟩

/-- A later execution ends as an earlier one did. -/
theorem sameOutcome_of_le (patience : Nat) (hc : c.term.ScopedIn [] s.id) (hle : s.id ≤ s'.id) :
    SameOutcome ((c.execute patience).outcome s) ((c.execute patience).outcome s') := by
  rcases (c.agree_execute_of_le patience hc hle).cases with
    ⟨t, s₁, u, s₁', ht, hu, -, htu⟩ | ⟨e, s₁, s₁', ht, hu⟩
  · rw [Attempt.outcome, Attempt.outcome, ht, hu]
    refine ⟨htu.print_eq, _, (shiftFrom_injective _ _).injOn, htu, fun v hv hb => ?_⟩
    -- what is free in the outcome has an identity of the command, and those lie below the shift
    have hid := hc.ids_below v.id (id_mem_ids_of_execute ht hv hb)
    rw [Variable.mapId, shiftFrom_of_lt hid]
  · rw [Attempt.outcome, Attempt.outcome, ht, hu]
    rfl

theorem sameOutcome (patience : Nat) (hs : c.term.ScopedIn [] s.id)
    (hs' : c.term.ScopedIn [] s'.id) :
    SameOutcome ((c.execute patience).outcome s) ((c.execute patience).outcome s') := by
  rcases Nat.le_total s.id s'.id with hle | hle
  · exact sameOutcome_of_le patience hs hle
  · exact (sameOutcome_of_le patience hs' hle).symm

end Command

/-- An execution that ends does so with every patience that is large enough. -/
theorem BetaReduction.proceed_of_le {b : BetaReduction} {rounds more done : Nat} {t : Term}
    {s : Supply} (hle : rounds ≤ more)
    (h : (b.proceed rounds done t).outcome s ≠ .error .unfinished) :
    (b.proceed more done t).outcome s = (b.proceed rounds done t).outcome s := by
  induction rounds generalizing more done t s with
  | zero => exact absurd rfl h
  | succ rounds ih =>
    obtain ⟨more, rfl⟩ : ∃ k, more = k + 1 := ⟨more - 1, by omega⟩
    simp only [Attempt.outcome, proceed_succ] at h ⊢
    cases hstep : (t.step? s).1 with
    | none => rfl
    | some next =>
      simp only [hstep] at h
      by_cases hbudget : b.budget ≠ 0 ∧ done = b.budget
      · simp only [if_pos hbudget]
      · by_cases hsteps : b.steps ≠ 0 ∧ done + 1 = b.steps
        · simp only [if_neg hbudget, if_pos hsteps]
        · simp only [if_neg hbudget, if_neg hsteps] at h ⊢
          exact ih (by omega) h

namespace Command

variable {c : Command} {s s' : Supply} {x : Except Error Term}

theorem execute_of_le {patience more : Nat} (hle : patience ≤ more)
    (h : (c.execute patience).outcome s ≠ .error .unfinished) :
    (c.execute more).outcome s = (c.execute patience).outcome s := by
  obtain ⟨t, conversion⟩ := c
  cases conversion with
  | identity => rfl
  | alpha _ _ => rfl
  | beta b =>
    have hrounds : b.rounds patience ≤ b.rounds more := by
      unfold BetaReduction.rounds
      split
      · exact Nat.le_refl _
      · split
        · exact Nat.le_refl _
        · exact hle
    exact BetaReduction.proceed_of_le hrounds h

/-- The execution never comes to an end. -/
def Diverges (c : Command) (s : Supply) : Prop :=
  ∀ patience, (c.execute patience).outcome s = .error .unfinished

/-- The execution comes to this end, if it is given enough patience. -/
def EndsWith (c : Command) (s : Supply) (x : Except Error Term) : Prop :=
  x ≠ .error .unfinished ∧
    ∃ enough, ∀ patience, enough ≤ patience → (c.execute patience).outcome s = x

theorem endsWith_of_execute {patience : Nat} (hx : x ≠ .error .unfinished)
    (h : (c.execute patience).outcome s = x) : c.EndsWith s x :=
  ⟨hx, patience, fun _ hle => (execute_of_le hle (h ▸ hx)).trans h⟩

/-- The outcomes of executing the command once more after every other piece of work. -/
def executions (patience : Nat) (c : Command) :
    List (Supply → Supply) → Supply → List (Except Error Term)
  | [], s => [(c.execute patience).outcome s]
  | work :: works, s =>
    (c.execute patience).outcome s ::
      c.executions patience works (work ((c.execute patience).leaves s))

/-- Each execution starts from a supply that was not set back. -/
theorem exists_of_mem_executions {patience : Nat} {works : List (Supply → Supply)}
    (hworks : ∀ work ∈ works, ∀ s, s.id ≤ (work s).id) (hx : x ∈ c.executions patience works s) :
    ∃ s' : Supply, s.id ≤ s'.id ∧ (c.execute patience).outcome s' = x := by
  induction works generalizing s with
  | nil =>
    obtain rfl := List.mem_singleton.mp hx
    exact ⟨s, Nat.le_refl _, rfl⟩
  | cons work works ih =>
    rcases List.mem_cons.mp hx with rfl | hx
    · exact ⟨s, Nat.le_refl _, rfl⟩
    · obtain ⟨hwork, hworks⟩ := List.forall_mem_cons.mp hworks
      obtain ⟨s', hle, he⟩ := ih hworks hx
      exact ⟨s', (c.le_leaves_execute patience s).trans ((hwork _).trans hle), he⟩

/-- Two executions of a well-scoped command, from any two supplies above its identities, both go on
for ever, or fail alike, or give twins that print alike. So do all that follow one another, whatever
else is drawn from the supply in between. -/
theorem ends_alike (hs : c.term.WellScoped s.id) (hs' : c.term.WellScoped s'.id) :
    ((c.Diverges s ∧ c.Diverges s') ∨
      (∃ e, c.EndsWith s (.error e) ∧ c.EndsWith s' (.error e)) ∨
      ∃ t u, c.EndsWith s (.ok t) ∧ c.EndsWith s' (.ok u) ∧ t.print = u.print ∧ t.Twins u) ∧
    ∀ patience works works', (∀ work ∈ works ++ works', ∀ s, s.id ≤ (work s).id) →
      ∀ x ∈ c.executions patience works s, ∀ y ∈ c.executions patience works' s',
        SameOutcome x y := by
  rw [wellScoped_iff] at hs hs'
  constructor
  · by_cases hd : c.Diverges s
    · exact .inl ⟨hd, fun patience => (sameOutcome patience hs hs').error_left (hd patience)⟩
    · obtain ⟨patience, hends⟩ := not_forall.mp hd
      have hsame := sameOutcome patience hs hs'
      cases hx : (c.execute patience).outcome s with
      | error e =>
        rw [hx] at hends
        exact .inr (.inl ⟨e, endsWith_of_execute hends hx,
          endsWith_of_execute hends (hsame.error_left hx)⟩)
      | ok t =>
        obtain ⟨u, hu, hprint, htwins⟩ := hsame.ok_left hx
        exact .inr (.inr ⟨t, u, endsWith_of_execute nofun hx, endsWith_of_execute nofun hu,
          hprint, htwins⟩)
  · intro patience works works' hworks x hx y hy
    obtain ⟨s₁, hle, rfl⟩ := exists_of_mem_executions
      (fun work hw => hworks work (List.mem_append_left _ hw)) hx
    obtain ⟨s₁', hle', rfl⟩ := exists_of_mem_executions
      (fun work hw => hworks work (List.mem_append_right _ hw)) hy
    exact sameOutcome patience (hs.mono hle) (hs'.mono hle')

/-- A function that applies its argument to itself, and one step to be done. -/
def selfApplied : Command where
  term := .app 0 (.lam 1 ⟨"x", true, 0⟩ (.app 2 (.var 3 ⟨"x", true, 0⟩) (.var 4 ⟨"x", true, 0⟩)))
    (.lam 5 ⟨"y", true, 1⟩ (.app 6 (.var 7 ⟨"y", true, 1⟩) (.var 8 ⟨"z", false, 2⟩)))
  conversion := .beta ⟨1, 0⟩

/-- The argument of that function twice, under heads that are drawn from the supply. -/
def appliedCopies (s : Supply) : Term :=
  let copy (k : Nat) : Term :=
    .lam (s.node + 3 * k + 2) ⟨"y", true, s.id + k⟩
      (.app (s.node + 3 * k + 1) (.var (s.node + 3 * k) ⟨"y", true, s.id + k⟩)
        (.var 8 ⟨"z", false, 2⟩))
  .app (s.node + 6) (copy 0) (copy 1)

theorem ends_alike_selfApplied :
    let work := fun s : Supply => { s with id := s.id + 7 }
    selfApplied.term.WellScoped 3 ∧ selfApplied.term.WellScoped 9 ∧ (∀ s, s.id ≤ (work s).id) ∧
      selfApplied.EndsWith ⟨3, 9⟩ (.ok (appliedCopies ⟨3, 9⟩)) ∧
      selfApplied.EndsWith ⟨9, 40⟩ (.ok (appliedCopies ⟨9, 40⟩)) ∧
      (appliedCopies ⟨3, 9⟩).print = (appliedCopies ⟨9, 40⟩).print ∧
      (appliedCopies ⟨3, 9⟩).Twins (appliedCopies ⟨9, 40⟩) ∧
      ∀ x ∈ selfApplied.executions 0 [work, work] ⟨3, 9⟩,
        ∀ y ∈ selfApplied.executions 0 [work] ⟨9, 40⟩, SameOutcome x y := by
  intro work
  have hs : selfApplied.term.WellScoped 3 := by constructor <;> decide
  have hs' : selfApplied.term.WellScoped 9 := by constructor <;> decide
  have hwork (s : Supply) : s.id ≤ (work s).id := Nat.le_add_right s.id 7
  have hrun (patience : Nat) (s : Supply) :
      (selfApplied.execute patience).outcome s = .ok (appliedCopies s) := rfl
  have hend {s : Supply} {x : Except Error Term} (h : selfApplied.EndsWith s x) :
      x = .ok (appliedCopies s) := by
    obtain ⟨-, enough, h⟩ := h
    rw [← h enough (Nat.le_refl _), hrun]
  obtain ⟨hends, hsame⟩ :=
    @ends_alike selfApplied ⟨3, 9⟩ ⟨9, 40⟩ hs hs'
  refine ⟨hs, hs', hwork, ?_⟩
  rcases hends with ⟨hd, -⟩ | ⟨e, he, -⟩ | ⟨t, u, ht, hu, hprint, htwins⟩
  · cases (hd 0).symm.trans (hrun 0 _)
  · cases hend he
  · cases hend ht
    cases hend hu
    exact ⟨ht, hu, hprint, htwins, hsame 0 [work, work] [work] (by simp [hwork])⟩

end Command

end LambdaCalc
