import LambdaCalc.Term.Church
import LambdaCalc.Proofs.Preservation

namespace LambdaCalc.Term

/-- A part of a term that was put together inside the lambdas with the heads `scope`, while the
supply went from `c` to `d`. What was there before had its identities below `old`. -/
structure Built (old : Nat) (scope : List Variable) (c d : Nat) (t : Term) : Prop where
  drawn : Drawn c d t
  flagged : t.Flagged
  resolved : t.Resolved scope
  origin : ∀ v ∈ t.vars, v.bound = false → v.id < old ∨ c ≤ v.id ∧ v.id < d
  apart : ∀ v ∈ t.vars, v.bound = false → v.id ∉ t.heads.map Variable.id

theorem Drawn.lam {c d n : Nat} {head : Variable} {b : Term} (h : Drawn (c + 1) d b)
    (hid : head.id = c) : Drawn c d (lam n head b) := by
  have hle := h.le
  refine ⟨by omega, ?_, ?_⟩
  · refine List.nodup_cons.mpr ⟨?_, h.distinct⟩
    intro hi
    have := h.mem head.id hi
    omega
  · intro i hi
    rcases List.mem_cons.mp hi with rfl | hi
    · omega
    · have := h.mem i hi
      omega

theorem Drawn.app {c d e n : Nat} {f a : Term} (hf : Drawn c d f) (ha : Drawn d e a) :
    Drawn c e (app n f a) := by
  have hcd := hf.le
  have hde := ha.le
  refine ⟨by omega, ?_, ?_⟩
  · simp only [heads, List.map_append]
    refine List.nodup_append.mpr ⟨hf.distinct, ha.distinct, ?_⟩
    intro i hi j hj hij
    have := hf.mem i hi
    have := ha.mem j hj
    omega
  · intro i hi
    simp only [heads, List.map_append, List.mem_append] at hi
    rcases hi with hi | hi
    · have := hf.mem i hi
      omega
    · have := ha.mem i hi
      omega

namespace Built

variable {old c d e n : Nat} {scope : List Variable} {head : Variable} {t b f a : Term}

theorem occurrence (hh : head ∈ scope) (hb : head.bound = true) :
    (var n head).Built old scope c c := by
  refine ⟨⟨Nat.le_refl c, List.nodup_nil, by simp [heads]⟩, by simp [Flagged, heads], ?_, ?_,
    by simp [heads]⟩
  · exact fun _ => ⟨head, hh, rfl, rfl⟩
  · intro v hv hf
    obtain rfl : v = head := by simpa [vars] using hv
    simp [hf] at hb

theorem free (name : String) : (var n ⟨name, false, c⟩).Built old scope c (c + 1) := by
  refine ⟨⟨Nat.le_succ c, List.nodup_nil, by simp [heads]⟩, by simp [Flagged, heads], ?_, ?_,
    by simp [heads]⟩
  · intro hb
    cases hb
  · intro v hv _
    obtain rfl : v = ⟨name, false, c⟩ := by simpa [vars] using hv
    exact .inr ⟨Nat.le_refl c, Nat.lt_succ_self c⟩

theorem lam (h : b.Built old (head :: scope) (c + 1) d) (hid : head.id = c)
    (hb : head.bound = true) (hold : old ≤ c) : (lam n head b).Built old scope c d := by
  refine ⟨h.drawn.lam hid, (flagged_lam n head b).mpr ⟨hb, h.flagged⟩, h.resolved, ?_, ?_⟩
  · intro v hv hf
    have := h.origin v hv hf
    omega
  · intro v hv hf hi
    rcases List.mem_cons.mp hi with hi | hi
    · have := h.origin v hv hf
      omega
    · exact h.apart v hv hf hi

theorem app (hf : f.Built old scope c d) (ha : a.Built old scope d e) (hold : old ≤ c) :
    (app n f a).Built old scope c e := by
  have hcd := hf.drawn.le
  have hde := ha.drawn.le
  refine ⟨hf.drawn.app ha.drawn, (flagged_app n f a).mpr ⟨hf.flagged, ha.flagged⟩,
    ⟨hf.resolved, ha.resolved⟩, ?_, ?_⟩
  · intro v hv hb
    rcases List.mem_append.mp hv with hv | hv
    · have := hf.origin v hv hb
      omega
    · have := ha.origin v hv hb
      omega
  -- the supply only grows, so what one part drew is not in the other one
  · intro v hv hb hi
    simp only [heads, List.map_append, List.mem_append] at hi
    rcases List.mem_append.mp hv with hv | hv
    · rcases hi with hi | hi
      · exact hf.apart v hv hb hi
      · have := hf.origin v hv hb
        have := ha.drawn.mem v.id hi
        omega
    · rcases hi with hi | hi
      · have := ha.origin v hv hb
        have := hf.drawn.mem v.id hi
        omega
      · exact ha.apart v hv hb hi

theorem of_le {c' : Nat} (h : t.Built old scope c d) (hc : c' ≤ c) : t.Built old scope c' d := by
  refine ⟨⟨Nat.le_trans hc h.drawn.le, h.drawn.distinct, ?_⟩, h.flagged, h.resolved, ?_, h.apart⟩
  · intro i hi
    have := h.drawn.mem i hi
    omega
  · intro v hv hb
    have := h.origin v hv hb
    omega

/-- A copy of a term whose free occurrences are old. -/
theorem copy (scope : List Variable) (h : Copied [] c d t b) (ht : t.Resolved [])
    (hfree : ∀ v ∈ t.vars, v.bound = false → v.id < old) (hold : old ≤ c) :
    b.Built old scope c d := by
  have hfresh (v : Variable) (hv : v ∈ b.vars) (hb : v.bound = false) : v.id < old :=
    hfree v (h.free_mem (by simp) v hv hb) hb
  refine ⟨h.drawn, h.flagged, ?_, ?_, ?_⟩
  · exact (h.resolved (fun _ => ⟨by simp, fun _ x hx _ => hx⟩) ht).mono (by simp)
  · exact fun v hv hb => .inl (hfresh v hv hb)
  · intro v hv hb hi
    have := hfresh v hv hb
    have := h.drawn.mem v.id hi
    omega

theorem wellFormed (h : t.Built old [] c d) (hold : old ≤ c) : t.WellFormed d := by
  have hle := h.drawn.le
  refine ⟨⟨h.drawn.distinct, h.resolved, h.apart, ?_, ?_⟩, h.flagged⟩
  · intro x hx
    exact (h.drawn.mem x.id (List.mem_map_of_mem hx)).2
  · intro v hv hb
    have := h.origin v hv hb
    omega

end Built

theorem applyTimes_built {old : Nat} {scope : List Variable} (f : Variable) (hf : f ∈ scope)
    (hb : f.bound = true) (k : Nat) (t : Term) (s : Supply) (ht : t.Built old scope s.id s.id)
    (hold : old ≤ s.id) :
    (applyTimes f k t s).1.Built old scope s.id s.id ∧ (applyTimes f k t s).2.id = s.id := by
  induction k generalizing t s with
  | zero => exact ⟨ht, rfl⟩
  | succ k ih =>
    exact ih (app (s.node + 1) (var s.node f) t) { s with node := s.node + 2 }
      ((Built.occurrence hf hb).app ht hold) hold

theorem numeral_built {old : Nat} (scope : List Variable) (k : Nat) (s : Supply)
    (hold : old ≤ s.id) :
    (numeral k s).1.Built old scope s.id (s.id + 2) ∧ (numeral k s).2.id = s.id + 2 := by
  let f : Variable := ⟨"f", true, s.id⟩
  let x : Variable := ⟨"x", true, s.id + 1⟩
  let s' : Supply := ⟨s.id + 2, s.node + 1⟩
  have hx : (var s.node x).Built old (x :: f :: scope) s'.id s'.id :=
    .occurrence List.mem_cons_self rfl
  have hold' : old ≤ s'.id := Nat.le_trans hold (Nat.le_add_right s.id 2)
  obtain ⟨hb, hid⟩ := applyTimes_built f (by simp) rfl k _ s' hx hold'
  refine ⟨?_, hid⟩
  exact (hb.lam rfl rfl (by omega)).lam rfl rfl hold

theorem truth_built {old : Nat} {scope : List Variable} (value : Bool) (s : Supply)
    (hold : old ≤ s.id) :
    (truth value s).1.Built old scope s.id (s.id + 2) ∧ (truth value s).2.id = s.id + 2 := by
  refine ⟨?_, rfl⟩
  let a : Variable := ⟨"a", true, s.id⟩
  let b : Variable := ⟨"b", true, s.id + 1⟩
  have hv : (var s.node (if value then a else b)).Built old (b :: a :: scope) (s.id + 2)
      (s.id + 2) := by
    apply Built.occurrence
    · cases value <;> simp
    · cases value <;> rfl
  exact (hv.lam rfl rfl (by omega)).lam rfl rfl hold

end LambdaCalc.Term
