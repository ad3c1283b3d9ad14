import LambdaCalc.Proofs.Rewriting
import LambdaCalc.Proofs.Scope

namespace LambdaCalc.Term

/-- All heads of the term were drawn between `c` and `d`, no identity twice. -/
structure Drawn (c d : Nat) (t : Term) : Prop where
  le : c ≤ d
  distinct : (t.heads.map Variable.id).Nodup
  mem : ∀ i ∈ t.heads.map Variable.id, c ≤ i ∧ i < d

/-- The heads of `t'` are heads of `t` or were drawn between `c` and `d`. -/
structure HeadsFrom (c d : Nat) (t t' : Term) : Prop where
  le : c ≤ d
  mem : ∀ i ∈ t'.heads.map Variable.id, i ∈ t.heads.map Variable.id ∨ c ≤ i ∧ i < d
  distinct : (t.heads.map Variable.id).Nodup → (∀ i ∈ t.heads.map Variable.id, i < c) →
    (t'.heads.map Variable.id).Nodup

theorem HeadsFrom.refl (c : Nat) (t : Term) : HeadsFrom c c t t :=
  ⟨Nat.le_refl c, fun _ hi => .inl hi, fun h _ => h⟩

theorem Drawn.headsFrom {c d : Nat} {t' : Term} (h : Drawn c d t') (t : Term) :
    HeadsFrom c d t t' :=
  ⟨h.le, fun i hi => .inr (h.mem i hi), fun _ _ => h.distinct⟩

theorem HeadsFrom.lam {c d n m : Nat} {head head' : Variable} {b b' : Term}
    (h : HeadsFrom c d b b') (he : head'.id = head.id) :
    HeadsFrom c d (lam n head b) (lam m head' b') := by
  refine ⟨h.le, ?_, ?_⟩ <;> simp only [heads, List.map_cons, he]
  · intro i hi
    rcases List.mem_cons.mp hi with rfl | hi
    · exact .inl List.mem_cons_self
    · rcases h.mem i hi with hi | hi
      · exact .inl (List.mem_cons_of_mem _ hi)
      · exact .inr hi
  · intro hd hb
    obtain ⟨hn, hd⟩ := List.nodup_cons.mp hd
    have hlt : head.id < c := hb head.id List.mem_cons_self
    refine List.nodup_cons.mpr ⟨?_, h.distinct hd fun i hi => hb i (List.mem_cons_of_mem _ hi)⟩
    intro hi
    rcases h.mem head.id hi with hi | hi
    · exact hn hi
    · omega

theorem HeadsFrom.app {c d e n m : Nat} {f f' a a' : Term} (hf : HeadsFrom c d f f')
    (ha : HeadsFrom d e a a') : HeadsFrom c e (app n f a) (app m f' a') := by
  have hcd := hf.le
  have hde := ha.le
  refine ⟨Nat.le_trans hcd hde, ?_, ?_⟩
  · intro i hi
    simp only [heads, List.map_append, List.mem_append] at hi ⊢
    rcases hi with hi | hi
    · rcases hf.mem i hi with hi | hi
      · exact .inl (.inl hi)
      · exact .inr (by omega)
    · rcases ha.mem i hi with hi | hi
      · exact .inl (.inr hi)
      · exact .inr (by omega)
  · intro hd hb
    simp only [heads, List.map_append, List.mem_append] at hd hb ⊢
    obtain ⟨hdf, hda, hapart⟩ := List.nodup_append.mp hd
    have hbf : ∀ i ∈ f.heads.map Variable.id, i < c := fun i hi => hb i (.inl hi)
    have hba : ∀ i ∈ a.heads.map Variable.id, i < c := fun i hi => hb i (.inr hi)
    refine List.nodup_append.mpr ⟨hf.distinct hdf hbf,
      ha.distinct hda fun i hi => Nat.lt_of_lt_of_le (hba i hi) hcd, ?_⟩
    -- a drawn identity is above the old ones, and the argument draws after the function
    intro i hi j hj hij
    rcases hf.mem i hi with hi | hi
    · rcases ha.mem j hj with hj | hj
      · exact hapart i hi j hj hij
      · have := hbf i hi
        omega
    · rcases ha.mem j hj with hj | hj
      · have := hba j hj
        omega
      · omega

/-- The copy draws as many identities as the term has lambdas, one after the other. -/
theorem Copied.heads_eq {renewed : List (Nat × Variable)} {c d : Nat} {t t' : Term}
    (h : Copied renewed c d t t') :
    d = c + t.heads.length ∧ t'.heads.map Variable.id = List.range' c t.heads.length := by
  induction h with
  | renewed _ => exact ⟨rfl, rfl⟩
  | kept _ => exact ⟨rfl, rfl⟩
  | lam _ ih =>
    obtain ⟨hd, he⟩ := ih
    refine ⟨by simp only [heads, List.length_cons]; omega, ?_⟩
    simp only [heads, List.map_cons, List.length_cons, List.range'_succ, he]
  | app _ _ hf ha =>
    obtain ⟨hd, hf⟩ := hf
    obtain ⟨he, ha⟩ := ha
    refine ⟨by simp only [heads, List.length_append]; omega, ?_⟩
    simp only [heads, List.map_append, List.length_append, hf, ha, hd]
    exact List.range'_append_1

theorem Copied.drawn {renewed : List (Nat × Variable)} {c d : Nat} {t t' : Term}
    (h : Copied renewed c d t t') : Drawn c d t' := by
  obtain ⟨hd, he⟩ := h.heads_eq
  refine ⟨by omega, he ▸ List.nodup_range', ?_⟩
  intro i hi
  rw [he, List.mem_range'_1] at hi
  omega

theorem Grafted.headsFrom {id : Nat} {copy : Nat → Nat → Term → Prop} {c d : Nat} {t t' : Term}
    (h : Grafted id copy c d t t') (hcopy : ∀ c d u, copy c d u → Drawn c d u) :
    HeadsFrom c d t t' := by
  induction h with
  | hit _ _ hu => exact (hcopy _ _ _ hu).headsFrom _
  | miss _ => exact .refl _ _
  | shadow _ => exact .refl _ _
  | lam _ _ ih => exact ih.lam rfl
  | app _ _ hf ha => exact hf.app ha

theorem Reduced.headsFrom {c d : Nat} {t t' : Term} (h : Reduced c d t t') :
    HeadsFrom c d t t' := by
  induction h with
  | @contract n m head b arg t' hg =>
    have hb := hg.headsFrom fun _ _ _ hu => hu.drawn
    have hsub : b.heads.Sublist (Term.app n (Term.lam m head b) arg).heads :=
      (List.sublist_cons_self head b.heads).trans (List.sublist_append_left _ arg.heads)
    have hsub := hsub.map Variable.id
    refine ⟨hb.le, ?_, ?_⟩
    · intro i hi
      exact (hb.mem i hi).imp_left fun hi => hsub.subset hi
    · intro hd hlt
      exact hb.distinct (hd.sublist hsub) fun i hi => hlt i (hsub.subset hi)
  | lam _ ih => exact ih.lam rfl
  | fn _ _ ih => exact ih.app (.refl _ _)
  | arg _ _ _ ih => exact (HeadsFrom.refl _ _).app ih

/-- All free occurrences of `t'` are occurrences of `t`. -/
def FreeFrom (t t' : Term) : Prop := ∀ v ∈ t'.vars, v.bound = false → v ∈ t.vars

theorem FreeFrom.refl (t : Term) : FreeFrom t t := fun _ hv _ => hv

theorem FreeFrom.app {n m : Nat} {f f' a a' : Term} (hf : FreeFrom f f') (ha : FreeFrom a a') :
    FreeFrom (app n f a) (app m f' a') := by
  intro v hv hb
  simp only [vars, List.mem_append] at hv ⊢
  exact hv.imp (fun hv => hf v hv hb) (fun hv => ha v hv hb)

theorem Copied.free_mem {renewed : List (Nat × Variable)} {c d : Nat} {t t' : Term}
    (h : Copied renewed c d t t') (hr : ∀ p ∈ renewed, p.2.bound = true) : FreeFrom t t' := by
  induction h with
  | @renewed renewed c n m v head hl =>
    intro w hw hf
    obtain rfl : w = head := by simpa [vars] using hw
    obtain ⟨before, after, he, _⟩ := List.lookup_eq_some_iff.mp hl
    have hb := hr (v.id, w) (by simp [he])
    simp [hf] at hb
  | kept _ => exact .refl _
  | lam _ ih =>
    apply ih
    intro p hp
    rcases List.mem_cons.mp hp with rfl | hp
    · rfl
    · exact hr p hp
  | app _ _ hf ha => exact (hf hr).app (ha hr)

theorem Grafted.free_mem {id : Nat} {copy : Nat → Nat → Term → Prop} {c d : Nat}
    {t t' whole : Term} (h : Grafted id copy c d t t')
    (hcopy : ∀ c d u, copy c d u → FreeFrom whole u) (ht : FreeFrom whole t) :
    FreeFrom whole t' := by
  induction h with
  | hit _ _ hu => exact hcopy _ _ _ hu
  | miss _ => exact ht
  | shadow _ => exact ht
  | lam _ _ ih => exact ih ht
  | app _ _ hf ha =>
    intro v hv
    rcases List.mem_append.mp hv with hv | hv
    · exact hf (fun w hw => ht w (List.mem_append_left _ hw)) v hv
    · exact ha (fun w hw => ht w (List.mem_append_right _ hw)) v hv

theorem Reduced.free_mem {c d : Nat} {t t' : Term} (h : Reduced c d t t') : FreeFrom t t' := by
  induction h with
  | contract hg =>
    apply hg.free_mem
    · intro _ _ u hu v hv hb
      exact List.mem_append_right _ (hu.free_mem (by simp) v hv hb)
    · intro v hv _
      exact List.mem_append_left _ hv
  | lam _ ih => exact ih
  | fn _ _ ih => exact ih.app (.refl _)
  | arg _ _ _ ih => exact (FreeFrom.refl _).app ih

/-- What `renewed` does to a scope: heads that it maps are in the new scope under their new
identity, and all others are there as before. -/
def Renews (renewed : List (Nat × Variable)) (scope scope' : List Variable) : Prop :=
  ∀ i, (∀ head, renewed.lookup i = some head → head ∈ scope') ∧
    (renewed.lookup i = none → ∀ head ∈ scope, head.id = i → head ∈ scope')

theorem Renews.cons {renewed : List (Nat × Variable)} {scope scope' : List Variable}
    (h : Renews renewed scope scope') (head fresh : Variable) :
    Renews ((head.id, fresh) :: renewed) (head :: scope) (fresh :: scope') := by
  intro i
  rw [List.lookup_cons]
  by_cases hi : i = head.id
  · simp [hi]
  · simp only [beq_eq_false_iff_ne.mpr hi]
    constructor
    · intro x hx
      exact List.mem_cons_of_mem _ ((h i).1 x hx)
    · intro hn x hx hid
      rcases List.mem_cons.mp hx with rfl | hx
      · exact absurd hid.symm hi
      · exact List.mem_cons_of_mem _ ((h i).2 hn x hx hid)

theorem Copied.resolved {renewed : List (Nat × Variable)} {c d : Nat} {t t' : Term}
    {scope scope' : List Variable} (h : Copied renewed c d t t') (hr : Renews renewed scope scope')
    (ht : t.Resolved scope) : t'.Resolved scope' := by
  induction h generalizing scope scope' with
  | @renewed renewed c n m v head hl => exact fun _ => ⟨head, (hr v.id).1 head hl, rfl, rfl⟩
  | @kept renewed c n v hl =>
    intro hb
    obtain ⟨head, hh, hid, hname⟩ := ht hb
    exact ⟨head, (hr v.id).2 hl head hh hid, hid, hname⟩
  | @lam renewed c d n m head b b' _ ih => exact ih (hr.cons head _) ht
  | app _ _ hf ha => exact ⟨hf hr ht.1, ha hr ht.2⟩

/-- The lambda with the identity goes away, and what is put in is resolved without it. -/
theorem Grafted.resolved {head : Variable} {copy : Nat → Nat → Term → Prop} {c d : Nat}
    {t t' : Term} {scope scope' : List Variable} (h : Grafted head.id copy c d t t')
    (inner : List Variable) (hcopy : ∀ c d u, copy c d u → u.Resolved scope')
    (hs : ∀ x ∈ scope, x ∈ scope')
    (hn : head.id ∉ t.heads.map Variable.id) (ht : t.Resolved (inner ++ head :: scope)) :
    t'.Resolved (inner ++ scope') := by
  induction h generalizing inner with
  | hit _ _ hu => exact (hcopy _ _ _ hu).mono fun x hx => List.mem_append_right _ hx
  | @miss c n v hm =>
    intro hb
    obtain ⟨x, hx, hid, hname⟩ := ht hb
    have hne : x ≠ head := fun he => hm ⟨hb, he ▸ hid.symm⟩
    refine ⟨x, ?_, hid, hname⟩
    simp only [List.mem_append, List.mem_cons, hne, false_or] at hx ⊢
    exact hx.imp_right (hs x)
  | shadow hi => exact absurd (hi ▸ List.mem_cons_self) hn
  | @lam c d n m x b b' _ _ ih =>
    exact ih (x :: inner) (fun hi => hn (List.mem_cons_of_mem _ hi)) ht
  | app _ _ hf ha =>
    simp only [heads, List.map_append, List.mem_append, not_or] at hn
    exact ⟨hf inner hn.1 ht.1, ha inner hn.2 ht.2⟩

theorem Reduced.resolved {c d bound : Nat} {t t' : Term} {scope : List Variable}
    (h : Reduced c d t t') (ht : t.ScopedIn scope bound) : t'.Resolved scope := by
  induction h generalizing scope with
  | @contract n m head b arg t' hg =>
    have hb := ht.fn.body
    refine hg.resolved [] ?_ (fun _ hx => hx) hb.head_notMem hb.resolved
    intro _ _ u hu
    exact hu.resolved (fun i => ⟨by simp, fun _ x hx _ => hx⟩) ht.arg.resolved
  | lam _ ih => exact ih ht.body
  | fn _ _ ih => exact ⟨ih ht.fn, ht.arg.resolved⟩
  | arg _ _ _ ih => exact ⟨ht.fn.resolved, ih ht.arg⟩

/-- A term is as well scoped as the one it comes from if it only takes over heads and free
occurrences, or draws heads, and its bound occurrences are resolved. -/
theorem ScopedIn.of_headsFrom {c d : Nat} {t t' : Term} {scope : List Variable}
    (ht : t.ScopedIn scope c) (hh : HeadsFrom c d t t')
    (hf : FreeFrom t t') (hr : t'.Resolved scope) :
    t'.ScopedIn scope d := by
  have hcd := hh.le
  have hd := ht.distinct
  rw [List.map_append] at hd
  obtain ⟨hds, hdt, hapart⟩ := List.nodup_append.mp hd
  have hbelow (i : Nat) (hi : i ∈ (scope ++ t.heads).map Variable.id) : i < c := by
    obtain ⟨x, hx, rfl⟩ := List.mem_map.mp hi
    exact ht.heads_below x hx
  have hbelow_scope (i : Nat) (hi : i ∈ scope.map Variable.id) : i < c :=
    hbelow i (by rw [List.map_append]; exact List.mem_append_left _ hi)
  have hbelow_heads (i : Nat) (hi : i ∈ t.heads.map Variable.id) : i < c :=
    hbelow i (by rw [List.map_append]; exact List.mem_append_right _ hi)
  refine ⟨?_, hr, ?_, ?_, ?_⟩
  · rw [List.map_append]
    refine List.nodup_append.mpr ⟨hds, hh.distinct hdt hbelow_heads, ?_⟩
    intro i hi j hj hij
    rcases hh.mem j hj with hj | hj
    · exact hapart i hi j hj hij
    · have := hbelow_scope i hi
      omega
  · intro v hv hb hi
    have hvt := hf v hv hb
    have hna := ht.apart v hvt hb
    have hlt := ht.free_below v hvt hb
    rw [List.map_append, List.mem_append] at hi hna
    rcases hi with hi | hi
    · exact hna (.inl hi)
    · rcases hh.mem v.id hi with hi | hi
      · exact hna (.inr hi)
      · omega
  · intro x hx
    rcases List.mem_append.mp hx with hx | hx
    · exact Nat.lt_of_lt_of_le (hbelow_scope x.id (List.mem_map_of_mem hx)) hcd
    · rcases hh.mem x.id (List.mem_map_of_mem hx) with hi | hi
      · exact Nat.lt_of_lt_of_le (hbelow_heads x.id hi) hcd
      · exact hi.2
  · intro v hv hb
    exact Nat.lt_of_lt_of_le (ht.free_below v (hf v hv hb) hb) hcd

theorem Reduced.scopedIn {c d : Nat} {t t' : Term} {scope : List Variable}
    (h : Reduced c d t t') (ht : t.ScopedIn scope c) : t'.ScopedIn scope d :=
  ht.of_headsFrom h.headsFrom h.free_mem (h.resolved ht)

theorem Copied.flagged {renewed : List (Nat × Variable)} {c d : Nat} {t t' : Term}
    (h : Copied renewed c d t t') : t'.Flagged := by
  induction h with
  | renewed _ => simp [Flagged, heads]
  | kept _ => simp [Flagged, heads]
  | lam _ ih => exact (flagged_lam _ _ _).mpr ⟨rfl, ih⟩
  | app _ _ hf ha => exact (flagged_app _ _ _).mpr ⟨hf, ha⟩

theorem Grafted.flagged {id : Nat} {copy : Nat → Nat → Term → Prop} {c d : Nat} {t t' : Term}
    (h : Grafted id copy c d t t') (hcopy : ∀ c d u, copy c d u → u.Flagged) (ht : t.Flagged) :
    t'.Flagged := by
  induction h with
  | hit _ _ hu => exact hcopy _ _ _ hu
  | miss _ => exact ht
  | shadow _ => exact ht
  | lam _ _ ih =>
    rw [flagged_lam] at ht ⊢
    exact ⟨ht.1, ih ht.2⟩
  | app _ _ hf ha =>
    rw [flagged_app] at ht ⊢
    exact ⟨hf ht.1, ha ht.2⟩

theorem Reduced.flagged {c d : Nat} {t t' : Term} (h : Reduced c d t t') (ht : t.Flagged) :
    t'.Flagged := by
  induction h with
  | contract hg =>
    rw [flagged_app, flagged_lam] at ht
    exact hg.flagged (fun _ _ _ hu => hu.flagged) ht.1.2
  | lam _ ih =>
    rw [flagged_lam] at ht ⊢
    exact ⟨ht.1, ih ht.2⟩
  | fn _ _ ih =>
    rw [flagged_app] at ht ⊢
    exact ⟨ih ht.1, ht.2⟩
  | arg _ _ _ ih =>
    rw [flagged_app] at ht ⊢
    exact ⟨ht.1, ih ht.2⟩

/-- A well-scoped term all of whose heads are flagged as bound. -/
structure WellFormed (bound : Nat) (t : Term) : Prop where
  scopedIn : t.ScopedIn [] bound
  flagged : t.Flagged

theorem WellFormed.mono {bound bound' : Nat} {t : Term} (h : t.WellFormed bound)
    (hb : bound ≤ bound') : t.WellFormed bound' :=
  ⟨h.scopedIn.mono hb, h.flagged⟩

theorem WellFormed.wellScoped {bound : Nat} {t : Term} (h : t.WellFormed bound) :
    t.WellScoped bound :=
  (wellScoped_iff bound t).mpr h.scopedIn

theorem Reduced.wellFormed {c d : Nat} {t t' : Term} (h : Reduced c d t t')
    (ht : t.WellFormed c) : t'.WellFormed d :=
  ⟨h.scopedIn ht.scopedIn, h.flagged ht.flagged⟩

end LambdaCalc.Term
