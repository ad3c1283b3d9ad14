import LambdaCalc.Proofs.Positions

namespace LambdaCalc.Term

variable {t t' : Term} {scope scope' : List Variable} {bound bound' : Nat}

theorem heads_subset_introduced (t : Term) : ∀ head ∈ t.heads, head ∈ t.introduced := by
  induction t with
  | var n v => simp [heads]
  | lam n head b ih =>
    exact List.forall_mem_cons.mpr
      ⟨List.mem_cons_self, fun x hx => List.mem_cons_of_mem _ (ih x hx)⟩
  | app n f a hf ha =>
    exact List.forall_mem_append.mpr
      ⟨fun x hx => List.mem_append_left _ (hf x hx), fun x hx => List.mem_append_right _ (ha x hx)⟩

theorem mem_introduced_of_free (t : Term) : ∀ v ∈ t.vars, v.bound = false → v ∈ t.introduced := by
  induction t with
  | var n v => simp +contextual [vars, introduced]
  | lam n head b ih => exact fun v hv hb => List.mem_cons_of_mem _ (ih v hv hb)
  | app n f a hf ha =>
    intro v hv hb
    rcases List.mem_append.mp hv with hv | hv
    · exact List.mem_append_left _ (hf v hv hb)
    · exact List.mem_append_right _ (ha v hv hb)

theorem ScopedIn.ids_subset_introduced (h : t.ScopedIn [] bound) :
    ∀ i ∈ t.ids, i ∈ t.introduced.map Variable.id := by
  intro i hi
  rcases h.mem_ids hi with hs | hh | ⟨v, hv, hb, rfl⟩
  · simp at hs
  · obtain ⟨head, hmem, rfl⟩ := List.mem_map.mp hh
    exact List.mem_map_of_mem (t.heads_subset_introduced head hmem)
  · exact List.mem_map_of_mem (t.mem_introduced_of_free v hv hb)

theorem ScopedIn.bound_var_iff {n : Nat} {v : Variable} (h : (var n v).ScopedIn scope bound) :
    v.bound = true ↔ v.id ∈ scope.map Variable.id :=
  h.bound_iff (o := ⟨v, scope⟩) (List.mem_singleton_self _)

/-- Two occurrences of one name that stand at the same position in their scopes. -/
theorem renumbered_var {n m : Nat} {v w : Variable} (ht : (var n v).ScopedIn scope bound)
    (ht' : (var m w).ScopedIn scope' bound') (hname : w.name = v.name)
    (hlength : scope'.length = scope.length)
    (hidx : (scope'.map Variable.id).idxOf w.id = (scope.map Variable.id).idxOf v.id) :
    (var m w).introduced.length = (var n v).introduced.length ∧
      ∀ σ : Nat → Nat, (scope.map Variable.id).map σ = scope'.map Variable.id →
        ((var n v).introduced.map Variable.id).map σ = (var m w).introduced.map Variable.id →
        (var n v).Renumbered σ (var m w) := by
  have hmem : w.id ∈ scope'.map Variable.id ↔ v.id ∈ scope.map Variable.id := by
    rw [← List.idxOf_lt_length_iff, ← List.idxOf_lt_length_iff, hidx, List.length_map,
      List.length_map, hlength]
  have hbound : w.bound = v.bound := by
    rw [Bool.eq_iff_iff, ht'.bound_var_iff, ht.bound_var_iff, hmem]
  refine ⟨by cases hb : v.bound <;> simp [introduced, hbound, hb], fun σ hscope hσ => ?_⟩
  have hid : w.id = σ v.id := by
    cases hb : v.bound with
    | false => simpa [introduced, hbound, hb, eq_comm] using hσ
    | true =>
      have hv := ht.bound_var_iff.mp hb
      have hget := List.getElem?_idxOf (hmem.mpr hv)
      rw [hidx, ← hscope, List.getElem?_map, List.getElem?_idxOf hv] at hget
      exact (Option.some.inj hget).symm
  have hw : w = v.mapId σ := by
    cases w
    simp_all [Variable.mapId]
  rw [hw]
  exact .var n m v

/-- Two terms that are written alike and mean the same bring in equally many variables. A renaming
that takes the identities of the scope and of these variables to those on the other side takes one
term to the other. -/
theorem renumbered_of_byName (ht : t.ScopedIn scope bound) (ht' : t'.ScopedIn scope' bound')
    (hf : t.Flagged) (hf' : t'.Flagged) (hphrase : t'.phrase = t.phrase)
    (hlength : scope'.length = scope.length)
    (h : (t'.namelessIn (scope'.map Variable.id)).byName =
      (t.namelessIn (scope.map Variable.id)).byName) :
    t'.introduced.length = t.introduced.length ∧
      ∀ σ : Nat → Nat, (scope.map Variable.id).map σ = scope'.map Variable.id →
        (t.introduced.map Variable.id).map σ = t'.introduced.map Variable.id →
        t.Renumbered σ t' := by
  -- no part knows the renaming of the whole term, so each is shown to go along with any that fits
  induction t generalizing t' scope scope' with
  | var n v =>
    cases t' with
    | lam _ _ _ => simp [phrase] at hphrase
    | app _ _ _ => simp [phrase] at hphrase
    | var m w =>
      have hname : w.name = v.name := by simpa [phrase] using hphrase
      have hv := List.idxOf_le_length (l := scope.map Variable.id) (a := v.id)
      have hw := List.idxOf_le_length (l := scope'.map Variable.id) (a := w.id)
      rw [List.length_map] at hv hw
      rw [byName_namelessIn_var, byName_namelessIn_var, List.length_map, List.length_map, hlength,
        hname, Nameless.occurrence_inj (hlength ▸ hw) hv] at h
      exact renumbered_var ht ht' hname hlength h
  | lam n head b ih =>
    cases t' with
    | var _ _ => simp [phrase] at hphrase
    | app _ _ _ => simp [phrase] at hphrase
    | lam m head' b' =>
      simp only [phrase, Phrase.lambda.injEq] at hphrase
      rw [flagged_lam] at hf hf'
      obtain ⟨hintroduced, hrenumbered⟩ := ih ht.body ht'.body hf.2 hf'.2 hphrase.2
        (by simp [hlength]) (Nameless.lam.inj h)
      refine ⟨by simp [introduced, hintroduced], fun σ hscope hσ => ?_⟩
      simp only [introduced, List.map_cons, List.cons.injEq] at hσ
      have hhead : head' = head.mapId σ := by
        cases head'
        simp_all [Variable.mapId]
      rw [hhead]
      exact .lam (hrenumbered σ (by simp [hscope, hσ.1]) hσ.2)
  | app n f a ihf iha =>
    cases t' with
    | var _ _ => simp [phrase] at hphrase
    | lam _ _ _ => simp [phrase] at hphrase
    | app m f' a' =>
      simp only [phrase, Phrase.apply.injEq] at hphrase
      rw [flagged_app] at hf hf'
      obtain ⟨hfn, harg⟩ := Nameless.app.inj h
      obtain ⟨hif, hrf⟩ := ihf ht.fn ht'.fn hf.1 hf'.1 hphrase.1 hlength hfn
      obtain ⟨hia, hra⟩ := iha ht.arg ht'.arg hf.2 hf'.2 hphrase.2 hlength harg
      refine ⟨by simp [introduced, hif, hia], fun σ hscope hσ => ?_⟩
      simp only [introduced, List.map_append] at hσ
      obtain ⟨hσf, hσa⟩ := List.append_inj hσ (by simp [hif])
      exact .app (hrf σ hscope hσf) (hra σ hscope hσa)

theorem exists_map_eq {l l' : List Nat} (hl : l.Nodup) (hl' : l'.Nodup)
    (hlength : l'.length = l.length) :
    ∃ σ : Nat → Nat, l.map σ = l' ∧ ∀ i ∈ l, ∀ j ∈ l, σ i = σ j → i = j := by
  let σ (i : Nat) : Nat := l'.getD (l.idxOf i) 0
  have hmap : l.map σ = l' := by
    refine List.ext_getElem (by simp [hlength]) fun k hk hk' => ?_
    have hlt : k < l.length := by simpa using hk
    simp [σ, hl.idxOf_getElem k hlt, hk']
  refine ⟨σ, hmap, fun i hi j hj hij => ?_⟩
  have hinj := (List.nodup_map_iff_inj_on hl).mp (hmap ▸ hl')
  exact hinj i hi j hj hij

theorem exists_renumbered (ht : t.WellFormed bound) (ht' : t'.WellFormed bound')
    (hphrase : t'.phrase = t.phrase) (h : t'.AlphaEq t)
    (hd : (t.introduced.map Variable.id).Nodup) (hd' : (t'.introduced.map Variable.id).Nodup) :
    ∃ σ : Nat → Nat, (∀ i ∈ t.ids, ∀ j ∈ t.ids, σ i = σ j → i = j) ∧ t.Renumbered σ t' := by
  obtain ⟨hlength, hrenumbered⟩ := renumbered_of_byName ht.scopedIn
    ht'.scopedIn ht.flagged ht'.flagged hphrase rfl h
  obtain ⟨σ, hmap, hinj⟩ := exists_map_eq hd hd' (by simp [hlength])
  have hids := ht.scopedIn.ids_subset_introduced
  exact ⟨σ, fun i hi j hj => hinj i (hids i hi) j (hids j hj), hrenumbered σ rfl hmap⟩

end LambdaCalc.Term
