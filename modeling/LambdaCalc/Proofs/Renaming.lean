import LambdaCalc.Command
import LambdaCalc.Proofs.Preservation

namespace LambdaCalc.Term

/-- `t'` is `t` after the first lambda that is called `old` took the name `new` together with its
occurrences. The supply stays at `c`. -/
inductive Renamed (old new : String) (c : Nat) : Term → Term → Prop
  | here {n m : Nat} {head : Variable} {b b' : Term} :
      head.name = old → clashes head.id new [] b = false →
      Grafted head.id (fun c d u => c = d ∧ ∃ k, u = var k (head.renamed new)) c c b b' →
      Renamed old new c (lam n head b) (lam m (head.renamed new) b')
  | lam {n m : Nat} {head : Variable} {b b' : Term} :
      head.name ≠ old → Renamed old new c b b' → Renamed old new c (lam n head b) (lam m head b')
  | fn {n m : Nat} {f f' a : Term} :
      Renamed old new c f f' → Renamed old new c (app n f a) (app m f' a)
  | arg {n m : Nat} {f a a' : Term} :
      (∀ head ∈ f.heads, head.name ≠ old) → Renamed old new c a a' →
      Renamed old new c (app n f a) (app m f a')

theorem Grafted.eq_of_copy_eq {id : Nat} {copy : Nat → Nat → Term → Prop} {c d : Nat}
    {t t' : Term} (h : Grafted id copy c d t t') (hcopy : ∀ c d u, copy c d u → c = d) : c = d := by
  induction h with
  | hit _ _ hu => exact hcopy _ _ _ hu
  | miss _ => rfl
  | shadow _ => rfl
  | lam _ _ ih => exact ih
  | app _ _ hf ha => exact hf.trans ha

/-- The first lambda and its occurrences get the name, and no identity is drawn. -/
theorem renameHead_spec (head : Variable) (new : String) (b : Term) (s : Supply) :
    (renameHead head new b s).2.id = s.id ∧
      ∃ m b', (renameHead head new b s).1 = lam m (head.renamed new) b' ∧
        Grafted head.id (fun c d u => c = d ∧ ∃ k, u = var k (head.renamed new))
          s.id s.id b b' := by
  let occurrence := var s.node (head.renamed new)
  let s₁ : Supply := { s with node := s.node + 1 }
  let r := b.substitute head.id (pure occurrence) s₁
  have hg : Grafted head.id (fun c d u => c = d ∧ ∃ k, u = var k (head.renamed new))
      s.id r.2.id b r.1 := substitute_grafted (fun _ => ⟨rfl, _, rfl⟩) b s₁
  have hid : s.id = r.2.id := hg.eq_of_copy_eq fun _ _ _ hu => hu.1
  refine ⟨hid.symm, r.2.node, r.1, rfl, ?_⟩
  rw [← hid] at hg
  exact hg

theorem renameFirst?_lam {old : String} {head : Variable} (new : String) (n : Nat) (b : Term)
    (s : Supply) (hname : head.name ≠ old) :
    (lam n head b).renameFirst? old new s =
      match b.renameFirst? old new s with
      | .ok b' s' => .ok (rebuildLam head b' s').1 (rebuildLam head b' s').2
      | .error e s' => .error e s' := by
  simp only [renameFirst?, hname, if_false]
  change EStateM.bind _ _ _ = _
  unfold EStateM.bind
  cases b.renameFirst? old new s <;> rfl

theorem renameFirst?_app (old new : String) (n : Nat) (f a : Term) (s : Supply) :
    (app n f a).renameFirst? old new s =
      match f.renameFirst? old new s with
      | .ok (some f') s' => .ok (some (app s'.node f' a)) { s' with node := s'.node + 1 }
      | .ok none s' =>
        match a.renameFirst? old new s' with
        | .ok a' s' => .ok (rebuildApp f a none a' s').1 (rebuildApp f a none a' s').2
        | .error e s' => .error e s'
      | .error e s' => .error e s' := by
  simp only [renameFirst?]
  change EStateM.bind _ _ _ = _
  unfold EStateM.bind
  rcases f.renameFirst? old new s with ⟨_ | f', s'⟩ | ⟨e, s'⟩
  · change EStateM.bind _ _ _ = _
    unfold EStateM.bind
    simp only
    cases a.renameFirst? old new s' <;> rfl
  · rfl
  · rfl

/-- Renaming finds no lambda of the old name, or renames the first one, or reports a clash. -/
theorem renameFirst?_spec (old new : String) (t : Term) (s : Supply) :
    ∃ s' : Supply, s'.id = s.id ∧
      (((∀ head ∈ t.heads, head.name ≠ old) ∧ t.renameFirst? old new s = .ok none s') ∨
        (∃ t', Renamed old new s.id t t' ∧ t.renameFirst? old new s = .ok (some t') s') ∨
        t.renameFirst? old new s = .error (.nameClash old new) s') := by
  induction t generalizing s with
  | var n v => exact ⟨s, rfl, .inl ⟨by simp [heads], rfl⟩⟩
  | lam n head b ih =>
    by_cases hname : head.name = old
    · cases hc : clashes head.id new [] b with
      | true =>
        refine ⟨s, rfl, .inr (.inr ?_)⟩
        simp only [renameFirst?, hname, hc, if_true]
        rfl
      | false =>
        obtain ⟨hid, m, b', ht, hg⟩ := renameHead_spec head new b s
        refine ⟨(renameHead head new b s).2, hid, .inr (.inl ⟨lam m (head.renamed new) b', ?_, ?_⟩)⟩
        · exact .here hname hc hg
        · rw [← ht]
          simp only [renameFirst?, hname, hc, if_true]
          rfl
    · have he := renameFirst?_lam new n b s hname
      obtain ⟨s', hid, ⟨hn, hs⟩ | ⟨b', hr, hs⟩ | hs⟩ := ih s
      · rw [hs] at he
        refine ⟨s', hid, .inl ⟨?_, he⟩⟩
        simp only [heads, List.mem_cons, forall_eq_or_imp]
        exact ⟨hname, hn⟩
      · rw [hs] at he
        exact ⟨{ s' with node := s'.node + 1 }, hid, .inr (.inl ⟨_, .lam hname hr, he⟩)⟩
      · rw [hs] at he
        exact ⟨s', hid, .inr (.inr he)⟩
  | app n f a hf ha =>
    have he := renameFirst?_app old new n f a s
    obtain ⟨s₁, hid₁, ⟨hn, hs₁⟩ | ⟨f', hr, hs₁⟩ | hs₁⟩ := hf s
    · rw [hs₁] at he
      obtain ⟨s₂, hid₂, ⟨hn₂, hs₂⟩ | ⟨a', hr, hs₂⟩ | hs₂⟩ := ha s₁
      · simp only [hs₂] at he
        refine ⟨s₂, hid₂.trans hid₁, .inl ⟨?_, he⟩⟩
        intro head hh
        exact (List.mem_append.mp hh).elim (hn head) (hn₂ head)
      · simp only [hs₂] at he
        exact ⟨{ s₂ with node := s₂.node + 1 }, hid₂.trans hid₁,
          .inr (.inl ⟨_, .arg hn (hid₁ ▸ hr), he⟩)⟩
      · simp only [hs₂] at he
        exact ⟨s₂, hid₂.trans hid₁, .inr (.inr he)⟩
    · rw [hs₁] at he
      exact ⟨{ s₁ with node := s₁.node + 1 }, hid₁, .inr (.inl ⟨_, .fn hr, he⟩)⟩
    · rw [hs₁] at he
      exact ⟨s₁, hid₁, .inr (.inr he)⟩

theorem rename_eq (old new : String) (t : Term) (s : Supply) :
    t.rename old new s =
      match t.rename? old new s with
      | .ok t' s' => .ok (t'.getD t) s'
      | .error e s' => .error e s' := by
  change EStateM.bind _ _ _ = _
  unfold EStateM.bind
  cases t.rename? old new s <;> rfl

/-- Renaming answers the term itself or the renamed one, or reports a clash. -/
theorem rename_spec (old new : String) (t : Term) (s : Supply) :
    ∃ s' : Supply, s'.id = s.id ∧
      (t.rename old new s = .ok t s' ∨
        (∃ t', Renamed old new s.id t t' ∧ t.rename old new s = .ok t' s') ∨
        t.rename old new s = .error (.nameClash old new) s') := by
  have he := rename_eq old new t s
  by_cases hname : old = new
  · simp only [rename?, hname, if_true] at he
    exact ⟨s, rfl, .inl (hname ▸ he)⟩
  · simp only [rename?, hname, if_false] at he
    obtain ⟨s', hid, ⟨_, hs⟩ | ⟨t', hr, hs⟩ | hs⟩ := renameFirst?_spec old new t s
    · rw [hs] at he
      exact ⟨s', hid, .inl he⟩
    · rw [hs] at he
      exact ⟨s', hid, .inr (.inl ⟨t', hr, he⟩)⟩
    · rw [hs] at he
      exact ⟨s', hid, .inr (.inr he)⟩

theorem Renamed.headsFrom {old new : String} {c : Nat} {t t' : Term} (h : Renamed old new c t t') :
    HeadsFrom c c t t' := by
  induction h with
  | here _ _ hg =>
    refine (hg.headsFrom ?_).lam rfl
    rintro c d u ⟨rfl, k, rfl⟩
    exact ⟨Nat.le_refl c, by simp [heads], by simp [heads]⟩
  | lam _ _ ih => exact ih.lam rfl
  | fn _ ih => exact ih.app (.refl _ _)
  | arg _ _ ih => exact (HeadsFrom.refl _ _).app ih

theorem Renamed.free_mem {old new : String} {c : Nat} {t t' : Term} (h : Renamed old new c t t')
    (ht : t.Flagged) : FreeFrom t t' := by
  induction h with
  | @here n m head b b' _ _ hg =>
    refine hg.free_mem ?_ (FreeFrom.refl b)
    rintro c d u ⟨rfl, k, rfl⟩ v hv hf
    obtain rfl : v = head.renamed new := by simpa [vars] using hv
    have hb := ((flagged_lam _ _ _).mp ht).1
    simp [Variable.renamed, hb] at hf
  | lam _ _ ih => exact ih ((flagged_lam _ _ _).mp ht).2
  | fn _ ih => exact (ih ((flagged_app _ _ _).mp ht).1).app (.refl _)
  | arg _ _ ih => exact (FreeFrom.refl _).app (ih ((flagged_app _ _ _).mp ht).2)

theorem Renamed.resolved {old new : String} {c bound : Nat} {t t' : Term} {scope : List Variable}
    (h : Renamed old new c t t') (ht : t.ScopedIn scope bound) : t'.Resolved scope := by
  induction h generalizing scope with
  | @here n m head b b' _ _ hg =>
    have hb := ht.body
    refine hg.resolved [] ?_ (fun _ hx => List.mem_cons_of_mem _ hx) hb.head_notMem hb.resolved
    rintro c d u ⟨rfl, k, rfl⟩ _
    exact ⟨head.renamed new, List.mem_cons_self, rfl, rfl⟩
  | lam _ _ ih => exact ih ht.body
  | fn _ ih => exact ⟨ih ht.fn, ht.arg.resolved⟩
  | arg _ _ ih => exact ⟨ht.fn.resolved, ih ht.arg⟩

theorem Renamed.flagged {old new : String} {c : Nat} {t t' : Term} (h : Renamed old new c t t')
    (ht : t.Flagged) : t'.Flagged := by
  induction h with
  | here _ _ hg =>
    rw [flagged_lam] at ht ⊢
    refine ⟨ht.1, hg.flagged ?_ ht.2⟩
    rintro c d u ⟨rfl, k, rfl⟩
    simp [Flagged, heads]
  | lam _ _ ih =>
    rw [flagged_lam] at ht ⊢
    exact ⟨ht.1, ih ht.2⟩
  | fn _ ih =>
    rw [flagged_app] at ht ⊢
    exact ⟨ih ht.1, ht.2⟩
  | arg _ _ ih =>
    rw [flagged_app] at ht ⊢
    exact ⟨ht.1, ih ht.2⟩

theorem Renamed.wellFormed {old new : String} {c : Nat} {t t' : Term} (h : Renamed old new c t t')
    (ht : t.WellFormed c) : t'.WellFormed c :=
  ⟨ht.scopedIn.of_headsFrom h.headsFrom (h.free_mem ht.flagged) (h.resolved ht.scopedIn),
    h.flagged ht.flagged⟩

end LambdaCalc.Term
