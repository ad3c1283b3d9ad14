import LambdaCalc.Proofs.Expansion
import LambdaCalc.Proofs.Iteration

namespace LambdaCalc.Term

/-- `t` applies what `turn` allows, `n` times one after the other, to what `base` allows, while the
supply goes from one identity to another. -/
inductive Stacked (turn base : Nat → Nat → Term → Prop) : Nat → Nat → Nat → Term → Prop
  | base {c d : Nat} {t : Term} : base c d t → Stacked turn base 0 c d t
  | turn {n c d e m : Nat} {f t : Term} :
      turn c d f → Stacked turn base n d e t → Stacked turn base (n + 1) c e (app m f t)

/-- `t` is an occurrence of the variable, for which nothing is drawn. -/
def OccurrenceOf (v : Variable) (c d : Nat) (t : Term) : Prop := c = d ∧ ∃ k, t = var k v

/-- `u` is a copy of `t` with fresh heads. -/
def CopyOf (t : Term) (c d : Nat) (u : Term) : Prop := Copied [] c d t u

variable {turn base copy : Nat → Nat → Term → Prop} {n c d id bound : Nat} {f x t t' u u' : Term}
  {v w : Variable} {s : Supply}

/-- The variables of a copy are those of the copied term or have fresh identities. -/
theorem Copied.mem_vars {renewed : List (Nat × Variable)} (h : Copied renewed c d t u)
    (hv : v ∈ u.vars) : v ∈ t.vars ∨ (∃ p ∈ renewed, p.2 = v) ∨ c ≤ v.id := by
  induction h with
  | @renewed renewed c n m w head hl =>
    obtain ⟨before, after, he, -⟩ := List.lookup_eq_some_iff.mp hl
    have hhead : v = head := List.mem_singleton.mp hv
    refine .inr (.inl ⟨(w.id, head), ?_, hhead.symm⟩)
    rw [he]
    exact List.mem_append_right _ List.mem_cons_self
  | kept _ => exact .inl hv
  | lam _ ih =>
    rcases ih hv with hold | ⟨p, hp, rfl⟩ | hle
    · exact .inl hold
    · rcases List.mem_cons.mp hp with rfl | hp
      · exact .inr (.inr (Nat.le_refl _))
      · exact .inr (.inl ⟨p, hp, rfl⟩)
    · exact .inr (.inr (Nat.le_of_succ_le hle))
  | app hfc _ hf ha =>
    have hle := hfc.drawn.le
    rcases List.mem_append.mp hv with hv | hv
    · exact (hf hv).imp_left (List.mem_append_left _)
    · rcases ha hv with hold | hnew | hfresh
      · exact .inl (List.mem_append_right _ hold)
      · exact .inr (.inl hnew)
      · exact .inr (.inr (hle.trans hfresh))

/-- A substitution that meets none of its occurrences in a copy leaves a copy, and draws nothing. -/
theorem Copied.of_grafted {renewed : List (Nat × Variable)} {c' d' : Nat}
    (h : Copied renewed c d t u) (hmiss : ∀ v ∈ u.vars, ¬(v.bound = true ∧ v.id = id))
    (hg : Grafted id copy c' d' u u') : c' = d' ∧ Copied renewed c d t u' := by
  induction h generalizing c' d' u' with
  | renewed hl =>
    cases hg with
    | hit hbound hid _ => exact absurd ⟨hbound, hid⟩ (hmiss _ List.mem_cons_self)
    | miss _ => exact ⟨rfl, .renewed hl⟩
  | kept hl =>
    cases hg with
    | hit hbound hid _ => exact absurd ⟨hbound, hid⟩ (hmiss _ List.mem_cons_self)
    | miss _ => exact ⟨rfl, .kept hl⟩
  | lam hb ih =>
    cases hg with
    | shadow _ => exact ⟨rfl, .lam hb⟩
    | lam _ hgb =>
      obtain ⟨hcd, hb'⟩ := ih hmiss hgb
      exact ⟨hcd, .lam hb'⟩
  | app _ _ hf ha =>
    cases hg with
    | app hgf hga =>
      obtain ⟨hcd, hf'⟩ := hf (fun v hv => hmiss v (List.mem_append_left _ hv)) hgf
      obtain ⟨hde, ha'⟩ := ha (fun v hv => hmiss v (List.mem_append_right _ hv)) hga
      exact ⟨hcd.trans hde, .app hf' ha'⟩

namespace Stacked

theorem applyTimes (k : Nat) (h : Stacked (OccurrenceOf v) base n c c t) (s : Supply) :
    Stacked (OccurrenceOf v) base (n + k) c c (Term.applyTimes v k t s).1 := by
  induction k generalizing n t s with
  | zero => exact h
  | succ k ih =>
    have hturn : Stacked (OccurrenceOf v) base (n + 1) c c (app (s.node + 1) (var s.node v) t) :=
      .turn ⟨rfl, s.node, rfl⟩ h
    have hrest := ih hturn { s with node := s.node + 2 }
    rw [Nat.add_assoc, Nat.add_comm 1 k] at hrest
    exact hrest

/-- The first substitution puts a copy in the place of every function. -/
theorem graft_turn {a b : Nat} (h : Stacked (OccurrenceOf v) (OccurrenceOf w) n a b t)
    (hv : v.bound = true) (hne : w.id ≠ v.id) (hg : Grafted v.id copy c d t t') :
    Stacked copy (OccurrenceOf w) n c d t' := by
  induction h generalizing c d t' with
  | base hw =>
    obtain ⟨-, k, rfl⟩ := hw
    cases hg with
    | hit _ hid _ => exact absurd hid hne
    | miss _ => exact .base ⟨rfl, k, rfl⟩
  | turn hfn _ ih =>
    obtain ⟨-, k, rfl⟩ := hfn
    cases hg with
    | app hgf hga =>
      cases hgf with
      | hit _ _ hcopy => exact .turn hcopy (ih hga)
      | miss hno => exact absurd ⟨hv, rfl⟩ hno

/-- The second one leaves the functions and puts a copy in the place of what they are applied to. -/
theorem graft_base {a b : Nat} (h : Stacked turn (OccurrenceOf v) n a b t) (hv : v.bound = true)
    (hturn : ∀ {c d u}, bound ≤ c → turn c d u → c ≤ d ∧
      ∀ {c' d' u'}, Grafted v.id copy c' d' u u' → c' = d' ∧ turn c d u')
    (ha : bound ≤ a) (hg : Grafted v.id copy b d t t') : Stacked turn copy n a d t' := by
  induction h generalizing d t' with
  | base hocc =>
    obtain ⟨rfl, k, rfl⟩ := hocc
    cases hg with
    | hit _ _ hcopy => exact .base hcopy
    | miss hno => exact absurd ⟨hv, rfl⟩ hno
  | turn hfn _ ih =>
    obtain ⟨hle, hkept⟩ := hturn ha hfn
    cases hg with
    | app hgf hga =>
      obtain ⟨rfl, hfn'⟩ := hkept hgf
      exact .turn hfn' (ih (ha.trans hle) hga)

/-- The heads of the copies are drawn one after the other. -/
theorem heads_eq (h : Stacked (CopyOf f) (CopyOf x) n c d t) :
    d = c + (n * f.heads.length + x.heads.length) ∧
      t.heads.map Variable.id = List.range' c (n * f.heads.length + x.heads.length) := by
  induction h with
  | base hx =>
    rw [Nat.zero_mul, Nat.zero_add]
    exact hx.heads_eq
  | turn hf _ ih =>
    obtain ⟨hd, hheads⟩ := hf.heads_eq
    obtain ⟨he, hrest⟩ := ih
    have hcount (n : Nat) : (n + 1) * f.heads.length + x.heads.length =
        f.heads.length + (n * f.heads.length + x.heads.length) := by
      rw [Nat.succ_mul]
      omega
    rw [hcount]
    refine ⟨by omega, ?_⟩
    rw [heads, List.map_append, hheads, hrest, hd]
    exact List.range'_append_1

/-- Copies read as the terms that were copied. -/
theorem nameless_eq (h : Stacked (CopyOf f) (CopyOf x) n c d t)
    (hf : ∀ v ∈ f.vars, v.id < bound) (hx : ∀ v ∈ x.vars, v.id < bound) (hc : bound ≤ c) :
    t.nameless = (Nameless.app f.nameless)^[n] x.nameless := by
  induction h with
  | base hcopy => exact hcopy.namelessIn_eq [] hx hc (by simp) (by simp)
  | turn hcopy _ ih =>
    have hfn := hcopy.namelessIn_eq [] hf hc (by simp) (by simp)
    have hrest := ih (hc.trans hcopy.drawn.le)
    rw [Function.iterate_succ_apply', ← hrest]
    exact congrArg (Nameless.app · _) hfn

end Stacked

theorem nameless_iterate_app (k n : Nat) (f x : Term) :
    ((app k f)^[n] x).nameless = (Nameless.app f.nameless)^[n] x.nameless := by
  induction n with
  | zero => rfl
  | succ n ih =>
    rw [Function.iterate_succ_apply', Function.iterate_succ_apply', ← ih]
    rfl

/-- A numeral is its two lambdas around a stack of its variables. -/
theorem exists_numeral_eq (n : Nat) (s : Supply) :
    ∃ i j body, (numeral n s).1 = lam i ⟨"f", true, s.id⟩ (lam j ⟨"x", true, s.id + 1⟩ body) ∧
      ∀ c, Stacked (OccurrenceOf ⟨"f", true, s.id⟩) (OccurrenceOf ⟨"x", true, s.id + 1⟩) n c c
        body := by
  refine ⟨_, _, _, rfl, fun c => ?_⟩
  have hbase : Stacked (OccurrenceOf ⟨"f", true, s.id⟩) (OccurrenceOf ⟨"x", true, s.id + 1⟩) 0 c c
      (var s.node ⟨"x", true, s.id + 1⟩) :=
    .base ⟨rfl, s.node, rfl⟩
  have hbody := hbase.applyTimes n ⟨s.id + 2, s.node + 1⟩
  rw [Nat.zero_add] at hbody
  exact hbody

theorem hasRedex_numeral (n : Nat) (s : Supply) : (numeral n s).1.hasRedex = false := by
  rw [← hasRedex_namelessIn [], namelessIn_numeral]
  exact Nameless.hasRedex_numeral n

/-- The first step puts the function in, below the inner lambda of the numeral. -/
theorem exists_step_numeral (n i j : Nat) (f x : Term) (s₀ s : Supply) :
    ∃ k m body s', (app j (app i (numeral n s₀).1 f) x).step s =
        (app k (lam m ⟨"x", true, s₀.id + 1⟩ body) x, s') ∧
      Stacked (CopyOf f) (OccurrenceOf ⟨"x", true, s₀.id + 1⟩) n s.id s'.id body := by
  obtain ⟨a, b, body, hnumeral, hstack⟩ := exists_numeral_eq n s₀
  rw [hnumeral]
  let outer : Variable := ⟨"f", true, s₀.id⟩
  let inner : Variable := ⟨"x", true, s₀.id + 1⟩
  let r := contract outer (lam b inner body) f s
  have hne : inner.id ≠ outer.id := Nat.succ_ne_self s₀.id
  obtain ⟨m, hlam, hid⟩ := exists_substitute_lam (n := b) hne f.refresh body s
  have hr : r.1 = lam m inner (body.substitute outer.id f.refresh s).1 := hlam
  have hgrafted : Grafted outer.id (CopyOf f) s.id r.2.id body
      (body.substitute outer.id f.refresh s).1 := by
    have hsupply : r.2.id = (body.substitute outer.id f.refresh s).2.id := hid
    rw [hsupply]
    exact substitute_grafted (refresh_copied f) body s
  have hbody := (hstack s.id).graft_turn rfl hne hgrafted
  refine ⟨r.2.node, m, _, { r.2 with node := r.2.node + 1 }, ?_, hbody⟩
  rw [← hr]
  rfl

/-- The second step puts the argument in below the copies of the function. The variable that it
replaces has no occurrence in them. -/
theorem stacked_step {k m : Nat} {body : Term} (hv : v.bound = true) (hc : v.id < c)
    (hmiss : ∀ w ∈ f.vars, w.id ≠ v.id)
    (h : Stacked (CopyOf f) (OccurrenceOf v) n c s.id body) :
    Stacked (CopyOf f) (CopyOf x) n c ((app k (lam m v body) x).step s).2.id
      ((app k (lam m v body) x).step s).1 := by
  have hgrafted : Grafted v.id (CopyOf x) s.id (body.substitute v.id x.refresh s).2.id body
      (body.substitute v.id x.refresh s).1 := substitute_grafted (refresh_copied x) body s
  apply h.graft_base hv _ (Nat.le_refl c) hgrafted
  intro a b u hca hcopy
  have hno : ∀ w ∈ u.vars, ¬(w.bound = true ∧ w.id = v.id) := by
    intro w hw ⟨_, hid⟩
    rcases hcopy.mem_vars hw with hold | ⟨p, hp, -⟩ | hfresh
    · exact hmiss w hold hid
    · cases hp
    · omega
  exact ⟨hcopy.drawn.le, fun hg => hcopy.of_grafted hno hg⟩

/-- A numeral that is applied to `f` and then to `x` takes two steps to copies of `f` that are
applied, as often as the numeral says, to a copy of `x`. It does not matter whether there are
redexes in `f` or in `x`, as none is contracted in them. All heads are the next identities of the
supply, so no two lambdas share one, though every copy of `f` reads as `f` does. By itself a numeral
takes no step. -/
theorem numeral_iterates (n i j k : Nat) {s₀ : Supply} (hf : ∀ id ∈ f.ids, id < s.id)
    (hx : ∀ id ∈ x.ids, id < s.id)
    (hn : ∀ head ∈ (numeral n s₀).1.heads, head.id < s.id ∧ head.id ∉ f.ids) :
    let t := app j (app i (numeral n s₀).1 f) x
    let u := t.stepTimes 2 s
    t.hasRedex = true ∧ (t.step s).1.hasRedex = true ∧
      Stacked (CopyOf f) (CopyOf x) n s.id u.2.id u.1 ∧
      u.1.nameless = ((app k f)^[n] x).nameless ∧ u.1.AlphaEq ((app k f)^[n] x) ∧
      u.1.heads.map Variable.id = List.range' s.id (n * f.heads.length + x.heads.length) ∧
      u.2.id = s.id + (n * f.heads.length + x.heads.length) ∧
      (u.1.heads.map Variable.id).Nodup ∧
      ∀ s₁ s₂, (numeral n s₁).1.hasRedex = false ∧
        (numeral n s₁).1.step s₂ = ((numeral n s₁).1, s₂) := by
  have hfvars : ∀ w ∈ f.vars, w.id ∈ f.ids := fun w hw =>
    List.mem_map_of_mem (List.mem_append_right _ hw)
  have hxvars : ∀ w ∈ x.vars, w.id ∈ x.ids := fun w hw =>
    List.mem_map_of_mem (List.mem_append_right _ hw)
  obtain ⟨a, m, body, s₁, hstep, hbody⟩ := exists_step_numeral n i j f x s₀ s
  have hinner : s₀.id + 1 < s.id ∧ s₀.id + 1 ∉ f.ids := by
    obtain ⟨p, q, inner, hnumeral, -⟩ := exists_numeral_eq n s₀
    apply hn ⟨"x", true, s₀.id + 1⟩
    rw [hnumeral]
    exact List.mem_cons_of_mem _ List.mem_cons_self
  have hmiss : ∀ w ∈ f.vars, w.id ≠ s₀.id + 1 := by
    intro w hw hid
    apply hinner.2
    rw [← hid]
    exact hfvars w hw
  have hstack := stacked_step (k := a) (m := m) (x := x) rfl hinner.1 hmiss hbody
  have hstart : (app j (app i (numeral n s₀).1 f) x).stepTimes 2 s =
      ((app j (app i (numeral n s₀).1 f) x).step s).1.step
        ((app j (app i (numeral n s₀).1 f) x).step s).2 := rfl
  rw [hstep] at hstart
  have hreading := hstack.nameless_eq (fun w hw => hf _ (hfvars w hw))
    (fun w hw => hx _ (hxvars w hw)) (Nat.le_refl _)
  rw [← nameless_iterate_app k] at hreading
  obtain ⟨hsupply, hheads⟩ := hstack.heads_eq
  dsimp only
  rw [hstart, hstep]
  refine ⟨?_, by simp [hasRedex, isLam], hstack, hreading, ?_, hheads, hsupply, ?_, ?_⟩
  · obtain ⟨p, q, inner, hnumeral, -⟩ := exists_numeral_eq n s₀
    simp [hnumeral, hasRedex, isLam]
  · rw [AlphaEq, hreading]
  · rw [hheads]
    exact List.nodup_range'
  · intro s₁ s₂
    have hnormal := hasRedex_numeral n s₁
    refine ⟨hnormal, ?_⟩
    rcases step_spec (numeral n s₁).1 s₂ with ⟨-, hs⟩ | ⟨hr, -⟩
    · exact hs
    · rw [hnormal] at hr
      cases hr

/-- A function whose body is a redex. -/
def redexBelow : Term :=
  let y : Variable := ⟨"y", true, 2⟩
  let z : Variable := ⟨"z", true, 3⟩
  lam 4 y (app 3 (lam 1 z (var 0 z)) (var 2 y))

/-- A term without a normal form. -/
def endless : Term :=
  let u : Variable := ⟨"u", true, 4⟩
  let v : Variable := ⟨"v", true, 5⟩
  app 11 (lam 7 u (app 6 (var 5 u) (var 5 u))) (lam 10 v (app 9 (var 8 v) (var 8 v)))

/-- The numeral three applies `redexBelow` to `endless`, and no redex of theirs is contracted. -/
theorem numeral_iterates_three :
    let f := redexBelow
    let x := endless
    let s : Supply := ⟨6, 40⟩
    (∀ id ∈ f.ids, id < s.id) ∧ (∀ id ∈ x.ids, id < s.id) ∧
      (∀ head ∈ (numeral 3 {}).1.heads, head.id < s.id ∧ head.id ∉ f.ids) ∧
      let u := (app 31 (app 30 (numeral 3 {}).1 f) x).stepTimes 2 s
      u.1.nameless = (app 0 f (app 0 f (app 0 f x))).nameless ∧
        u.1.heads.map Variable.id = [6, 7, 8, 9, 10, 11, 12, 13] := by
  have hf : ∀ id ∈ redexBelow.ids, id < 6 := by decide
  have hx : ∀ id ∈ endless.ids, id < 6 := by decide
  have hn : ∀ head ∈ (numeral 3 {}).1.heads, head.id < 6 ∧ head.id ∉ redexBelow.ids := by decide
  obtain ⟨-, -, -, hreading, -, hheads, -⟩ :=
    numeral_iterates (s := ⟨6, 40⟩) 3 30 31 0 hf hx hn
  exact ⟨hf, hx, hn, hreading, hheads⟩

end LambdaCalc.Term
