import LambdaCalc.Proofs.Positions
import LambdaCalc.Proofs.Readable

namespace LambdaCalc

open Term

/-- The outcome of the command to which the name is bound, if it is executed now. -/
def Reader.meaning (r : Reader) (word : String) : Option Term :=
  match r.program.get? word with
  | some c =>
    match c.execute r.patience r.supply with
    | .ok t _ => some t
    | .error _ _ => none
  | none => none

/-- The readers that a caller can have. Between two statements it can do whatever it likes, except
to take the program away or to set the supply back. -/
inductive Reader.Reachable : Reader → Prop
  | start (source : Source) (supply : Supply) (budget patience : Nat) :
      Reachable { source := source, supply := supply, budget := budget, patience := patience }
  | read {r r' : Reader} {c? : Option Command} :
      Reachable r → Read.statement r = .ok c? r' → Reachable r'
  | failed {r r' : Reader} {e : Error} :
      Reachable r → Read.statement r = .error e r' → Reachable r'
  | meanwhile {r : Reader} {supply : Supply} (source : Source) (budget patience : Nat) :
      Reachable r → r.supply.id ≤ supply.id →
      Reachable
        { r with source := source, supply := supply, budget := budget, patience := patience }

namespace Reader

variable {r : Reader} {word : String} {t : Term}

theorem meaning_eq_some (h : r.meaning word = some t) :
    ∃ c s, r.program.get? word = some c ∧ c.execute r.patience r.supply = .ok t s := by
  unfold meaning at h
  split at h
  · next c hc =>
    split at h
    · next t' s he =>
      cases h
      exact ⟨c, s, hc, he⟩
    · cases h
  · cases h

theorem meaning_of_execute {c : Command} {s : Supply} (hc : r.program.get? word = some c)
    (he : c.execute r.patience r.supply = .ok t s) : r.meaning word = some t := by
  simp only [meaning, hc, he]

theorem Sound.wellFormed_meaning (h : r.Sound) (hm : r.meaning word = some t) :
    ∃ bound, t.WellFormed bound := by
  obtain ⟨c, s, hc, he⟩ := meaning_eq_some hm
  exact ⟨s.id, (Command.execute_ok he (h c (.inl ⟨word, hc⟩))).1⟩

theorem Literate.readable_meaning (h : r.Literate) (hm : r.meaning word = some t) : t.Readable := by
  obtain ⟨c, s, hc, he⟩ := meaning_eq_some hm
  exact (h.commands c (.inl ⟨word, hc⟩)).execute he

namespace Reachable

theorem sound (h : r.Reachable) : r.Sound := by
  induction h with
  | start _ _ _ _ =>
    rintro c (⟨word, hc⟩ | hc) <;> cases hc
  | read _ hr ih => exact (Read.sound_of_statement_ok ih hr).1
  | failed _ hr ih => exact (Read.sound_of_statement_error ih hr).1
  | meanwhile _ _ _ _ hle ih => exact fun c hc => (ih c hc).mono hle

theorem literate (h : r.Reachable) : r.Literate := by
  induction h with
  | start _ _ _ _ =>
    refine ⟨?_, ?_⟩
    · rintro word ⟨⟩
    · rintro c (⟨word, hc⟩ | hc) <;> cases hc
  | read _ hr ih => exact (Read.spells_statement.of_ok ih hr).1
  | failed _ hr ih => exact Read.spells_statement.of_error ih hr
  | meanwhile _ _ _ _ _ ih => exact ⟨ih.current, ih.commands⟩

end Reachable

end Reader

/-- `copy` stands in a term for `t`. It has the shape of `t` and its names, its occurrences belong
to the same lambdas, and what is free in `t` is the same variable in it. -/
structure Term.Spliced (t copy : Term) : Prop where
  phrase : copy.phrase = t.phrase
  nameless : copy.nameless = t.nameless
  free : ∀ path n v, t.at? path = some (var n v) → v.bound = false →
    ∃ m, copy.at? path = some (var m v)
  resolved : copy.Resolved []
  closed : t.Closed → copy.Closed

/-- A renaming of identities that fixes what is free, and then fresh heads: a copy of the term. -/
theorem Term.Renumbered.spliced {σ : Nat → Nat} {t u copy : Term} {bound bound' c d : Nat}
    (h : t.Renumbered σ u) (hσ : σ.Injective) (ht : t.ScopedIn [] bound)
    (hu : u.ScopedIn [] bound') (hcopied : Copied [] c d u copy) (hbelow : bound' ≤ c)
    (hfree : ∀ v ∈ t.vars, v.bound = false → σ v.id = v.id) : t.Spliced copy where
  phrase := (hcopied.phrase_eq hu (by simp)).trans h.phrase_eq
  nameless := by
    have hcopy := hcopied.namelessIn_eq [] hu.vars_below hbelow (by simp) List.nodup_nil
    exact hcopy.trans (h.namelessIn_eq hσ ht.resolved hfree)
  free := by
    intro path n v hv hb
    obtain ⟨m, hum⟩ := h.at?_eq hv
    have hkeep : v.mapId σ = v := by rw [Variable.mapId, hfree v (mem_vars_of_at? hv) hb]
    rw [hkeep] at hum
    exact ⟨m, hcopied.at?_of_free hum rfl (hu.apart v (mem_vars_of_at? hum) hb)⟩
  resolved := hcopied.resolved (fun i => ⟨by simp, fun _ x hx _ => hx⟩) hu.resolved
  closed := by
    intro hclosed v hv
    by_contra hb
    have hb : v.bound = false := by simpa using hb
    have hv := hcopied.free_mem (by simp) v hv hb
    exact absurd (h.closed_iff.mpr hclosed v hv) (by simp [hb])

namespace Reader.Sound

variable {r : Reader} {word : String} {c : Command} {u : Term} {s s' : Supply}

/-- An outcome that the command of a name has with a later supply is what the name means, up to a
renaming of identities that leaves alone what is free. -/
theorem exists_meaning (h : r.Sound) (hc : r.program.get? word = some c)
    (hle : r.supply.id ≤ s.id) (he : c.execute r.patience s = .ok u s') :
    ∃ (t : Term) (σ : Nat → Nat), r.meaning word = some t ∧ σ.Injective ∧ t.Renumbered σ u ∧
      ∀ v ∈ t.vars, v.bound = false → σ v.id = v.id := by
  have hw := h c (.inl ⟨word, hc⟩)
  -- the shift from one supply to the other moves nothing that the command holds
  have hagree := c.agree_execute_of_le r.patience hw.scopedIn hle
  rcases hagree.cases with ⟨t, s₁, u', s₂, ht, hu, -, htu⟩ | ⟨e, s₁, s₂, -, hu⟩
  · obtain ⟨-, hfrom⟩ := Command.execute_ok ht hw
    cases he.symm.trans hu
    refine ⟨t, _, meaning_of_execute hc ht, shiftFrom_injective _ _, htu, fun v hv hb => ?_⟩
    exact shiftFrom_of_lt (hw.scopedIn.free_below v (hfrom v hv hb) hb)
  · cases he.symm.trans hu

/-- Whenever the command of a name is executed, what the reader puts in for the name is a copy of
what the name means. -/
theorem spliced (h : r.Sound) (hc : r.program.get? word = some c) (hle : r.supply.id ≤ s.id)
    (he : c.execute r.patience s = .ok u s') :
    ∃ t, r.meaning word = some t ∧ t.Spliced (u.refresh s').1 := by
  obtain ⟨t, σ, hm, hσ, htu, hfree⟩ := h.exists_meaning hc hle he
  obtain ⟨_, ht⟩ := h.wellFormed_meaning hm
  obtain ⟨hu, -⟩ := Command.execute_ok he ((h c (.inl ⟨word, hc⟩)).mono hle)
  exact ⟨t, hm, htu.spliced hσ ht.scopedIn hu.scopedIn (refresh_copied u s') (Nat.le_refl _) hfree⟩

end Reader.Sound

end LambdaCalc
