import LambdaCalc.Proofs.Preservation

namespace LambdaCalc.Term

/-- A scope that grows in its middle lifts the reading, if no variable belongs to what is put in. -/
theorem namelessIn_lift (t : Term) (own inner outer : List Nat)
    (h : ∀ v ∈ t.vars, v.id ∉ inner) :
    t.namelessIn (own ++ (inner ++ outer)) =
      (t.namelessIn (own ++ outer)).lift inner.length own.length := by
  induction t generalizing own with
  | var _ v =>
    have hi : v.id ∉ inner := h v List.mem_cons_self
    by_cases ho : v.id ∈ own
    · have hlt : own.idxOf v.id < own.length := List.idxOf_lt_length_of_mem ho
      simp [namelessIn, ho, List.idxOf_append_of_mem, Nameless.lift, hlt]
    · by_cases hout : v.id ∈ outer
      · simp only [namelessIn, List.mem_append, ho, hi, hout, or_true, if_true, Nameless.lift,
          List.idxOf_append_of_notMem ho, List.idxOf_append_of_notMem hi]
        rw [if_neg (by omega)]
        congr 1
        omega
      · simp [namelessIn, ho, hi, hout, Nameless.lift]
  | lam _ head body ih =>
    have hb := ih (head.id :: own) h
    simpa only [namelessIn, Nameless.lift, List.cons_append, List.length_cons,
      Nameless.lam.injEq] using hb
  | app _ fn arg hf ha =>
    have hf := hf own fun v hv => h v (List.mem_append_left _ hv)
    have ha := ha own fun v hv => h v (List.mem_append_right _ hv)
    simp only [namelessIn, Nameless.lift, hf, ha]

/-- Fresh heads do not change the reading: an occurrence finds its new head where the old one
stood. -/
theorem Copied.namelessIn_eq {renewed : List (Nat × Variable)} {bound c d : Nat} {t t' : Term}
    (h : Copied renewed c d t t') (outer : List Nat) (ht : ∀ v ∈ t.vars, v.id < bound)
    (hbound : bound ≤ c) (hr : ∀ p ∈ renewed, bound ≤ p.2.id ∧ p.2.id < c)
    (hd : (renewed.map (·.2.id)).Nodup) :
    t'.namelessIn (renewed.map (·.2.id) ++ outer) = t.namelessIn (renewed.map (·.1) ++ outer) := by
  induction h with
  | @renewed renewed c n m v head hl =>
    obtain ⟨before, after, rfl, hbefore⟩ := List.lookup_eq_some_iff.mp hl
    have hold : v.id ∉ before.map (·.1) := by
      intro hi
      obtain ⟨p, hp, hid⟩ := List.mem_map.mp hi
      have := hbefore p hp
      simp [hid] at this
    have hnew : head.id ∉ before.map (·.2.id) := by
      simp only [List.map_append, List.map_cons] at hd
      exact fun hi => (List.nodup_append.mp hd).2.2 _ hi _ List.mem_cons_self rfl
    simp [namelessIn, List.idxOf_append_of_notMem hold, List.idxOf_append_of_notMem hnew]
  | @kept renewed c n v hl =>
    have hold : v.id ∉ renewed.map (·.1) := by
      intro hi
      obtain ⟨p, hp, hid⟩ := List.mem_map.mp hi
      have := List.lookup_eq_none_iff.mp hl p hp
      simp [hid] at this
    have hnew : v.id ∉ renewed.map (·.2.id) := by
      intro hi
      obtain ⟨p, hp, hid⟩ := List.mem_map.mp hi
      have hlt := ht v List.mem_cons_self
      have := (hr p hp).1
      omega
    simp [namelessIn, hold, hnew, List.idxOf_append_of_notMem]
  | @lam renewed c d n m head b b' _ ih =>
    have hb := ih ht (by omega) ?_ ?_
    · exact congrArg Nameless.lam hb
    · intro p hp
      rcases List.mem_cons.mp hp with rfl | hp
      · exact ⟨hbound, Nat.lt_succ_self c⟩
      · have := hr p hp
        omega
    · simp only [List.map_cons, List.nodup_cons]
      refine ⟨?_, hd⟩
      intro hi
      obtain ⟨p, hp, hid⟩ := List.mem_map.mp hi
      have := (hr p hp).2
      omega
  | @app renewed c d e n m f f' a a' hcf _ hf ha =>
    have hcd := hcf.drawn.le
    have hf := hf (fun v hv => ht v (List.mem_append_left _ hv)) hbound hr hd
    have ha := ha (fun v hv => ht v (List.mem_append_right _ hv)) (by omega)
      (fun p hp => by have := hr p hp; omega) hd
    simp only [namelessIn, hf, ha]

/-- Grafting copies of the argument is substitution on the readings. The lambda that goes away
stands between `inner` and `outer`. -/
theorem Grafted.namelessIn_eq {id c d : Nat} {t t' arg : Term}
    (h : Grafted id (fun c d u => Copied [] c d arg u) c d t t') (inner outer : List Nat)
    (hi : id ∉ inner)
    (hn : id ∉ t.heads.map Variable.id) (hb : ∀ v ∈ t.vars, v.id = id → v.bound = true)
    (hin : ∀ v ∈ arg.vars, v.id ∉ inner) (hheads : ∀ v ∈ arg.vars, v.id ∉ t.heads.map Variable.id)
    (hlt : ∀ v ∈ arg.vars, v.id < c) :
    t'.namelessIn (inner ++ outer) =
      (t.namelessIn (inner ++ id :: outer)).subst (arg.namelessIn outer) inner.length := by
  induction h generalizing inner with
  | @hit c d n v u _ hid hu =>
    have hcopy := hu.namelessIn_eq (inner ++ outer) hlt (Nat.le_refl c) (by simp) (by simp)
    have hlift := arg.namelessIn_lift [] inner outer hin
    simp only [List.map_nil, List.nil_append, List.length_nil] at hcopy hlift
    rw [hcopy, hlift]
    simp [namelessIn, hid, List.idxOf_append_of_notMem hi, Nameless.subst]
  | @miss c n v hm =>
    have hne : v.id ≠ id := fun he => hm ⟨hb v List.mem_cons_self he, he⟩
    by_cases hvi : v.id ∈ inner
    · have hlt : inner.idxOf v.id < inner.length := List.idxOf_lt_length_of_mem hvi
      simp [namelessIn, hvi, List.idxOf_append_of_mem, Nameless.subst, hlt]
    · by_cases hvo : v.id ∈ outer
      · simp only [namelessIn, List.mem_append, List.mem_cons, hvi, hvo, hne, or_true, if_true,
          List.idxOf_append_of_notMem hvi, List.idxOf_cons_ne _ (Ne.symm hne), Nameless.subst]
        rw [if_neg (by omega), if_neg (by omega)]
        congr 1
      · simp [namelessIn, hvi, hvo, hne, Nameless.subst]
  | shadow he => exact absurd (he ▸ List.mem_cons_self) hn
  | @lam c d n m head b b' hne _ ih =>
    have hbody := ih (head.id :: inner) ?_ ?_ hb ?_ ?_ hlt
    · simpa only [namelessIn, Nameless.subst, List.cons_append, List.length_cons,
        Nameless.lam.injEq] using hbody
    · simp only [List.mem_cons, not_or]
      exact ⟨Ne.symm hne, hi⟩
    · exact fun hm => hn (List.mem_cons_of_mem _ hm)
    · intro v hv
      simp only [List.mem_cons, not_or]
      exact ⟨fun he => hheads v hv (he ▸ List.mem_cons_self), hin v hv⟩
    · exact fun v hv hm => hheads v hv (List.mem_cons_of_mem _ hm)
  | @app c d e n m f f' a a' hgf _ hf ha =>
    have hcd := (hgf.headsFrom fun _ _ _ hu => hu.drawn).le
    simp only [heads, List.map_append, List.mem_append, not_or] at hn hheads
    have hf := hf inner hi hn.1 (fun v hv => hb v (List.mem_append_left _ hv)) hin
      (fun v hv => (hheads v hv).1) hlt
    have ha := ha inner hi hn.2 (fun v hv => hb v (List.mem_append_right _ hv)) hin
      (fun v hv => (hheads v hv).2) (fun v hv => Nat.lt_of_lt_of_le (hlt v hv) hcd)
    simp only [namelessIn, Nameless.subst, hf, ha]

/-- The contraction of a redex inside the lambdas `scope`. No free variable of the body has the
identity of the head, and no variable of the argument that of a lambda of the body. -/
theorem ScopedIn.contract_eq {scope : List Variable} {c d n m : Nat} {head : Variable}
    {b arg t' : Term} (ht : (app n (lam m head b) arg).ScopedIn scope c)
    (h : Grafted head.id (fun c d u => Copied [] c d arg u) c d b t') :
    t'.namelessIn (scope.map Variable.id) =
      (b.namelessIn (head.id :: scope.map Variable.id)).subst
        (arg.namelessIn (scope.map Variable.id)) 0 := by
  have hd := ht.distinct
  simp only [heads, List.map_append, List.map_cons, List.cons_append, List.nodup_append,
    List.nodup_cons, List.mem_append, List.mem_cons, not_or] at hd
  obtain ⟨_, ⟨⟨hnb, _⟩, _, _, hba⟩, hscope⟩ := hd
  have hheads (v : Variable) (hv : v ∈ arg.vars) : v.id ∉ b.heads.map Variable.id := by
    intro hi
    cases hb : v.bound with
    | false =>
      apply ht.apart v (List.mem_append_right _ hv) hb
      simp only [heads, List.map_append, List.map_cons, List.mem_append, List.mem_cons]
      tauto
    | true =>
      have hm := ht.arg.resolved.id_mem hv hb
      rw [List.map_append, List.mem_append] at hm
      rcases hm with hm | hm
      · exact hscope _ hm _ (.inr (.inl hi)) rfl
      · exact hba _ hi _ hm rfl
  refine h.namelessIn_eq [] _ (by simp) hnb ?_ (by simp) hheads ht.arg.vars_below
  intro v hv hid
  by_contra hb
  apply ht.apart v (List.mem_append_left _ hv) (by simpa using hb)
  simp [heads, hid]

/-- A step is the leftmost outermost one of the readings. -/
theorem Reduced.normalStep {c d : Nat} {t t' : Term} {scope : List Variable}
    (h : Reduced c d t t') (ht : t.ScopedIn scope c) :
    (t.namelessIn (scope.map Variable.id)).NormalStep (t'.namelessIn (scope.map Variable.id)) := by
  induction h generalizing scope with
  | contract hg =>
    rw [ht.contract_eq hg]
    exact .contract _ _
  | lam _ ih => exact .lam (ih ht.body)
  | fn hl _ ih => exact .fn _ (isLam_namelessIn _ _ ▸ hl) (ih ht.fn)
  | arg hl hr _ ih =>
    exact .arg (isLam_namelessIn _ _ ▸ hl) (hasRedex_namelessIn _ _ ▸ hr) (ih ht.arg)

/-- One step on a well-scoped term is one step of normal order: with a redex its outcome reads as
the one leftmost outermost reduct, and without a redex nothing changes. -/
theorem nameless_step {t : Term} {s : Supply} (h : t.WellScoped s.id) :
    (t.hasRedex = true → ∀ u, t.nameless.NormalStep u ↔ (t.step s).1.nameless = u) ∧
      (t.hasRedex = false → (t.step s).1.nameless = t.nameless) := by
  have ht := (wellScoped_iff s.id t).mp h
  rcases step_spec t s with ⟨hr, hs⟩ | ⟨hr, hred⟩
  · rw [hs]
    exact ⟨fun hr' => by simp [hr] at hr', fun _ => rfl⟩
  · have hstep : t.nameless.NormalStep (t.step s).1.nameless := hred.normalStep ht
    refine ⟨fun _ u => ⟨fun hu => hstep.unique hu, fun hu => hu ▸ hstep⟩, ?_⟩
    intro hr'
    simp [hr] at hr'

/-- Under a lambda `y` stands a redex whose argument mentions that `y` and has a lambda of its own.
Its body uses the argument twice, once below another lambda that is called `y`. -/
def shadowingRedex : Term :=
  lam 0 ⟨"y", true, 0⟩ (app 1
    (lam 2 ⟨"x", true, 1⟩ (app 3 (lam 4 ⟨"y", true, 2⟩ (var 5 ⟨"x", true, 1⟩))
      (var 6 ⟨"x", true, 1⟩)))
    (app 7 (lam 8 ⟨"z", true, 3⟩ (var 9 ⟨"z", true, 3⟩)) (var 10 ⟨"y", true, 0⟩)))

theorem nameless_step_shadowingRedex :
    shadowingRedex.WellScoped 4 ∧ shadowingRedex.hasRedex = true ∧
      shadowingRedex.nameless.NormalStep (.lam (.app
        (.lam (.app (.lam (.index 0)) (.index 1))) (.app (.lam (.index 0)) (.index 0)))) := by
  have h : shadowingRedex.WellScoped ({ id := 4, node := 11 } : Supply).id := by
    constructor <;> decide
  exact ⟨h, by decide, ((nameless_step h).1 (by decide) _).mpr (by decide)⟩

end LambdaCalc.Term
