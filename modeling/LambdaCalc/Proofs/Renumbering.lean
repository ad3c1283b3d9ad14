import LambdaCalc.Proofs.Execution
import Mathlib.Logic.Function.Basic

namespace LambdaCalc

/-- The same variable under another identity. -/
def Variable.mapId (σ : Nat → Nat) (v : Variable) : Variable := { v with id := σ v.id }

/-- The renaming takes what one supply hands out to what the other one does. -/
def Aligned (σ : Nat → Nat) (c c' : Nat) : Prop := ∀ i, σ (c + i) = c' + i

theorem beq_map {σ : Nat → Nat} (hσ : σ.Injective) (i j : Nat) : (σ i == σ j) = (i == j) := by
  rw [Bool.eq_iff_iff, beq_iff_eq, beq_iff_eq, hσ.eq_iff]

theorem Aligned.add {σ : Nat → Nat} {c c' : Nat} (h : Aligned σ c c') (n : Nat) :
    Aligned σ (c + n) (c' + n) := by
  intro i
  rw [Nat.add_assoc, h, Nat.add_assoc]

namespace Term

/-- Every variable under another identity. -/
def mapIds (σ : Nat → Nat) : Term → Term
  | var n v => var n (v.mapId σ)
  | lam n head body => lam n (head.mapId σ) (body.mapIds σ)
  | app n fn arg => app n (fn.mapIds σ) (arg.mapIds σ)

/-- The second term is the first one with other identities. Labels of nodes do not matter. -/
inductive Renumbered (σ : Nat → Nat) : Term → Term → Prop
  | var (n m : Nat) (v : Variable) : Renumbered σ (var n v) (var m (v.mapId σ))
  | lam {n m : Nat} {head : Variable} {b b' : Term} :
      Renumbered σ b b' → Renumbered σ (lam n head b) (lam m (head.mapId σ) b')
  | app {n m : Nat} {f f' a a' : Term} :
      Renumbered σ f f' → Renumbered σ a a' → Renumbered σ (app n f a) (app m f' a')

variable {σ : Nat → Nat} {t t' u u' : Term}

theorem renumbered_iff : Renumbered σ t u ↔ (t.mapIds σ).alike u = true := by
  constructor
  · intro h
    induction h with
    | var n m v => simp [mapIds, alike]
    | lam _ ih => simp [mapIds, alike, ih]
    | app _ _ hf ha => simp [mapIds, alike, hf, ha]
  · intro h
    induction t generalizing u with
    | var n v =>
      cases u with
      | var m w =>
        obtain rfl : v.mapId σ = w := by simpa [mapIds, alike] using h
        exact .var n m v
      | _ => simp [mapIds, alike] at h
    | lam n head b ih =>
      cases u with
      | lam m w b' =>
        simp only [mapIds, alike, Bool.and_eq_true, beq_iff_eq] at h
        obtain ⟨rfl, hb⟩ := h
        exact .lam (ih hb)
      | _ => simp [mapIds, alike] at h
    | app n f a hf ha =>
      cases u with
      | app m f' a' =>
        simp only [mapIds, alike, Bool.and_eq_true] at h
        exact .app (hf h.1) (ha h.2)
      | _ => simp [mapIds, alike] at h

/-- A renaming that moves no identity of a term leaves the term as it is. -/
theorem renumbered_self (hh : ∀ head ∈ t.heads, σ head.id = head.id)
    (hv : ∀ v ∈ t.vars, σ v.id = v.id) : Renumbered σ t t := by
  have hmap {v : Variable} (h : σ v.id = v.id) : v.mapId σ = v := by
    rw [Variable.mapId, h]
  induction t with
  | var n v =>
    have h := Renumbered.var (σ := σ) n n v
    rwa [hmap (hv v List.mem_cons_self)] at h
  | lam n head b ih =>
    have h : Renumbered σ (lam n head b) (lam n (head.mapId σ) b) :=
      .lam (ih (fun x hx => hh x (List.mem_cons_of_mem _ hx)) hv)
    rwa [hmap (hh head List.mem_cons_self)] at h
  | app n f a hf ha =>
    exact .app
      (hf (fun x hx => hh x (List.mem_append_left _ hx))
        fun v hx => hv v (List.mem_append_left _ hx))
      (ha (fun x hx => hh x (List.mem_append_right _ hx))
        fun v hx => hv v (List.mem_append_right _ hx))

namespace Renumbered

theorem heads_eq (h : Renumbered σ t u) : u.heads = t.heads.map (·.mapId σ) := by
  induction h with
  | var _ _ _ => rfl
  | lam _ ih => simp [heads, ih]
  | app _ _ hf ha => simp [heads, hf, ha]

theorem vars_eq (h : Renumbered σ t u) : u.vars = t.vars.map (·.mapId σ) := by
  induction h with
  | var _ _ _ => rfl
  | lam _ ih => exact ih
  | app _ _ hf ha => simp [vars, hf, ha]

theorem isLam_eq (h : Renumbered σ t u) : u.isLam = t.isLam := by
  cases h <;> rfl

theorem hasRedex_eq (h : Renumbered σ t u) : u.hasRedex = t.hasRedex := by
  induction h with
  | var _ _ _ => rfl
  | lam _ ih => exact ih
  | app hf _ ihf iha => simp only [hasRedex, hf.isLam_eq, ihf, iha]

/-- A term reads the same under other identities, if the free variables keep theirs. -/
theorem namelessIn_eq (h : Renumbered σ t u) (hσ : σ.Injective) {scope : List Variable}
    (ht : t.Resolved scope) (hfree : ∀ v ∈ t.vars, v.bound = false → σ v.id = v.id) :
    u.namelessIn ((scope.map Variable.id).map σ) = t.namelessIn (scope.map Variable.id) := by
  induction h generalizing scope with
  | var n m v =>
    have hmem : σ v.id ∈ (scope.map Variable.id).map σ ↔ v.id ∈ scope.map Variable.id :=
      List.mem_map_of_injective hσ
    by_cases hv : v.id ∈ scope.map Variable.id
    · have hidx : ((scope.map Variable.id).map σ).idxOf (σ v.id) =
          (scope.map Variable.id).idxOf v.id := by
        simp only [List.idxOf, List.findIdx_map, Function.comp_def, beq_map hσ]
      simp only [namelessIn, Variable.mapId, if_pos hv, if_pos (hmem.mpr hv), hidx]
    · have hbound : v.bound = false := by
        by_contra hb
        obtain ⟨head, hh, hid, -⟩ := ht (by simpa using hb)
        exact hv (List.mem_map.mpr ⟨head, hh, hid⟩)
      have ht : (Term.var n v).namelessIn (scope.map Variable.id) = .free v.name v.id := if_neg hv
      have hu : (Term.var m (v.mapId σ)).namelessIn ((scope.map Variable.id).map σ) =
          .free v.name (σ v.id) := if_neg (mt hmem.mp hv)
      rw [ht, hu, hfree v List.mem_cons_self hbound]
  | @lam _ _ head b b' _ ih => exact congrArg Nameless.lam (ih ht hfree)
  | app _ _ hf ha =>
    have hf := hf ht.1 fun v hv => hfree v (List.mem_append_left _ hv)
    have ha := ha ht.2 fun v hv => hfree v (List.mem_append_right _ hv)
    simp only [namelessIn, hf, ha]

end Renumbered

end Term

open Term

variable {σ : Nat → Nat} {c c' d d' : Nat} {t t' u u' : Term}

theorem lookup_map_mapId (hσ : σ.Injective) (renewed : List (Nat × Variable)) (i : Nat) :
    (renewed.map fun p => (σ p.1, p.2.mapId σ)).lookup (σ i) =
      (renewed.lookup i).map (·.mapId σ) := by
  induction renewed with
  | nil => rfl
  | cons p renewed ih =>
    rw [List.map_cons, List.lookup_cons, List.lookup_cons]
    by_cases hi : i = p.1
    · simp [hi]
    · have hne : (i == p.1) = false := beq_eq_false_iff_ne.mpr hi
      simp only [beq_map hσ, hne, ih]

namespace Term

theorem Copied.renumbered {renewed : List (Nat × Variable)} (hσ : σ.Injective)
    (h : Copied renewed c d t t')
    (h' : Copied (renewed.map fun p => (σ p.1, p.2.mapId σ)) c' d' u u')
    (htu : Renumbered σ t u) (hc : Aligned σ c c') : Aligned σ d d' ∧ Renumbered σ t' u' := by
  induction h generalizing c' d' u u' with
  | @renewed renewed c n m v head hl =>
    cases htu with
    | var _ k _ =>
      have hlookup := lookup_map_mapId hσ renewed v.id
      rw [hl] at hlookup
      cases h' with
      | renewed hl' =>
        obtain rfl := Option.some.inj (hl'.symm.trans hlookup)
        exact ⟨hc, .var _ _ head⟩
      | kept hl' => exact absurd (hl'.symm.trans hlookup) (by simp)
  | @kept renewed c n v hl =>
    cases htu with
    | var _ k _ =>
      have hlookup := lookup_map_mapId hσ renewed v.id
      rw [hl] at hlookup
      cases h' with
      | renewed hl' => exact absurd (hl'.symm.trans hlookup) (by simp)
      | kept _ => exact ⟨hc, .var _ _ v⟩
  | @lam renewed c d n m head b b' _ ih =>
    cases htu with
    | lam hb =>
      cases h' with
      | lam hb' =>
        have hid : σ c = c' := hc 0
        have hfresh : (⟨(head.mapId σ).name, true, c'⟩ : Variable) =
            Variable.mapId σ ⟨head.name, true, c⟩ := by
          rw [Variable.mapId, Variable.mapId, hid]
        rw [hfresh] at hb' ⊢
        obtain ⟨hd, hbody⟩ := ih hb' hb (hc.add 1)
        exact ⟨hd, .lam hbody⟩
  | app _ _ hf ha =>
    cases htu with
    | app hfn harg =>
      cases h' with
      | app hf' ha' =>
        obtain ⟨hd, hfn⟩ := hf hf' hfn hc
        obtain ⟨he, harg⟩ := ha ha' harg hd
        exact ⟨he, .app hfn harg⟩

/-- What is put in on both sides differs in identities only. -/
def CopiesAlike (σ : Nat → Nat) (copy copy' : Nat → Nat → Term → Prop) : Prop :=
  ∀ {c d c' d' : Nat} {u u' : Term}, copy c d u → copy' c' d' u' → Aligned σ c c' →
    Aligned σ d d' ∧ Renumbered σ u u'

theorem Grafted.renumbered {id : Nat} {copy copy' : Nat → Nat → Term → Prop} (hσ : σ.Injective)
    (hcopy : CopiesAlike σ copy copy') (h : Grafted id copy c d t t')
    (h' : Grafted (σ id) copy' c' d' u u') (htu : Renumbered σ t u) (hc : Aligned σ c c') :
    Aligned σ d d' ∧ Renumbered σ t' u' := by
  induction h generalizing c' d' u u' with
  | @hit c d n v t' hb hid hu =>
    cases htu with
    | var _ k _ =>
      cases h' with
      | hit _ _ hu' => exact hcopy hu hu' hc
      | miss hm => exact absurd ⟨hb, congrArg σ hid⟩ hm
  | @miss c n v hm =>
    cases htu with
    | var _ k _ =>
      cases h' with
      | hit hb hid _ => exact absurd ⟨hb, hσ hid⟩ hm
      | miss _ => exact ⟨hc, .var _ _ v⟩
  | @shadow c n head b hid =>
    cases htu with
    | lam hb =>
      cases h' with
      | shadow _ => exact ⟨hc, .lam hb⟩
      | lam hne _ => exact absurd (congrArg σ hid) hne
  | @lam c d n m head b b' hne _ ih =>
    cases htu with
    | lam hb =>
      cases h' with
      | shadow hid => exact absurd (hσ hid) hne
      | lam _ hb' =>
        obtain ⟨hd, hbody⟩ := ih hb' hb hc
        exact ⟨hd, .lam hbody⟩
  | app _ _ hf ha =>
    cases htu with
    | app hfn harg =>
      cases h' with
      | app hf' ha' =>
        obtain ⟨hd, hfn⟩ := hf hf' hfn hc
        obtain ⟨he, harg⟩ := ha ha' harg hd
        exact ⟨he, .app hfn harg⟩

theorem Reduced.hasRedex_eq_true (h : Reduced c d t t') : t.hasRedex = true := by
  induction h with
  | contract _ => simp [hasRedex, isLam]
  | lam _ ih => exact ih
  | fn _ _ ih => simp [hasRedex, ih]
  | arg _ _ _ ih => simp [hasRedex, ih]

theorem Reduced.renumbered (hσ : σ.Injective) (h : Reduced c d t t') (h' : Reduced c' d' u u')
    (htu : Renumbered σ t u) (hc : Aligned σ c c') : Aligned σ d d' ∧ Renumbered σ t' u' := by
  induction h generalizing d' u u' with
  | contract hg =>
    cases htu with
    | app hfn harg =>
      cases hfn with
      | lam hb =>
        cases h' with
        | contract hg' =>
          refine hg.renumbered hσ ?_ hg' hb hc
          exact fun hw hw' hc => Copied.renumbered hσ hw hw' harg hc
        | fn hl _ => simp [isLam] at hl
        | arg hl _ _ => simp [isLam] at hl
  | lam _ ih =>
    cases htu with
    | lam hb =>
      cases h' with
      | lam hb' =>
        obtain ⟨hd, hbody⟩ := ih hb' hb
        exact ⟨hd, .lam hbody⟩
  | fn hl hf ih =>
    cases htu with
    | app hfn harg =>
      cases h' with
      | contract _ =>
        rw [← hfn.isLam_eq] at hl
        cases hl
      | fn _ hf' =>
        obtain ⟨hd, hfn⟩ := ih hf' hfn
        exact ⟨hd, .app hfn harg⟩
      | arg _ hr _ =>
        rw [hfn.hasRedex_eq, hf.hasRedex_eq_true] at hr
        cases hr
  | arg hl hr _ ih =>
    cases htu with
    | app hfn harg =>
      cases h' with
      | contract _ =>
        rw [← hfn.isLam_eq] at hl
        cases hl
      | fn _ hf' =>
        rw [← hfn.hasRedex_eq, hf'.hasRedex_eq_true] at hr
        cases hr
      | arg _ _ ha' =>
        obtain ⟨hd, harg⟩ := ih ha' harg
        exact ⟨hd, .app hfn harg⟩

end Term

/-- Two runs that both fail, with the same error, or both succeed, with outcomes in the relation. -/
def Attempt.Agree {α : Type} (σ : Nat → Nat) (related : α → α → Prop) :
    EStateM.Result Error Supply α → EStateM.Result Error Supply α → Prop
  | .ok a s, .ok b s' => Aligned σ s.id s'.id ∧ related a b
  | .error e _, .error e' _ => e = e'
  | _, _ => False

variable {s s' : Supply}

theorem Attempt.Agree.cases {α : Type} {related : α → α → Prop}
    {x y : EStateM.Result Error Supply α} (h : Attempt.Agree σ related x y) :
    (∃ a s b s', x = .ok a s ∧ y = .ok b s' ∧ Aligned σ s.id s'.id ∧ related a b) ∨
      ∃ e s s', x = .error e s ∧ y = .error e s' := by
  cases x with
  | ok a s =>
    cases y with
    | ok b s' => exact .inl ⟨a, s, b, s', rfl, rfl, h⟩
    | error e' s' => exact h.elim
  | error e s =>
    cases y with
    | ok b s' => exact h.elim
    | error e' s' => exact .inr ⟨e, s, s', rfl, congrArg (EStateM.Result.error · s') h.symm⟩

theorem BetaReduction.agree_proceed (b : BetaReduction) (rounds done : Nat) (hσ : σ.Injective)
    (htu : t.Renumbered σ u) (hs : Aligned σ s.id s'.id) :
    Attempt.Agree σ (Renumbered σ) (b.proceed rounds done t s) (b.proceed rounds done u s') := by
  induction rounds generalizing done t u s s' with
  | zero => rfl
  | succ rounds ih =>
    rw [proceed_succ, proceed_succ]
    rcases step?_spec t s with ⟨ht, hstep⟩ | ⟨t₁, s₁, ht, hstep, hred⟩
    · have hu := htu.hasRedex_eq.trans ht
      rw [hstep, step?_of_normal hu]
      exact ⟨hs, htu⟩
    · have hu := htu.hasRedex_eq.trans ht
      rcases step?_spec u s' with ⟨hu', _⟩ | ⟨u₁, s₁', _, hstep', hred'⟩
      · rw [hu] at hu'
        cases hu'
      · obtain ⟨hs₁, htu₁⟩ := hred.renumbered hσ hred' htu hs
        rw [hstep, hstep']
        simp only
        split
        · split
          · rfl
          · exact ⟨hs₁, htu⟩
        · split
          · exact ⟨hs₁, htu₁⟩
          · exact ih _ htu₁ hs₁

namespace Term

theorem clashes_renumbered (hσ : σ.Injective) (id : Nat) (new : String) (inner : List Variable)
    (htu : Renumbered σ t u) :
    u.clashes (σ id) new (inner.map (·.mapId σ)) = t.clashes id new inner := by
  induction htu generalizing inner with
  | var n m v =>
    have hname : (inner.map (·.mapId σ)).any (·.name == new) = inner.any (·.name == new) := by
      simp [List.any_map, Function.comp_def, Variable.mapId]
    have hid : (inner.map (·.mapId σ)).any (·.id == (v.mapId σ).id) = inner.any (·.id == v.id) := by
      simp only [List.any_map, Function.comp_def, Variable.mapId, beq_map hσ]
    simp only [clashes, hname, hid]
    simp [Variable.mapId, hσ.eq_iff]
  | lam _ ih => exact ih (_ :: inner)
  | app _ _ hf ha => simp only [clashes, hf inner, ha inner]

theorem renameFirst?_here {old : String} {head : Variable} (new : String) (n : Nat) (b : Term)
    (s : Supply) (hname : head.name = old) :
    (lam n head b).renameFirst? old new s =
      if clashes head.id new [] b then .error (.nameClash old new) s
      else .ok (some (renameHead head new b s).1) (renameHead head new b s).2 := by
  simp only [renameFirst?, hname, if_true]
  split <;> rfl

theorem renameHead_renumbered (hσ : σ.Injective) (head : Variable) (new : String)
    (htu : Renumbered σ t u) (hs : Aligned σ s.id s'.id) :
    Aligned σ (renameHead head new t s).2.id (renameHead (head.mapId σ) new u s').2.id ∧
      Renumbered σ (renameHead head new t s).1 (renameHead (head.mapId σ) new u s').1 := by
  obtain ⟨hid, m, b, ht, hg⟩ := renameHead_spec head new t s
  obtain ⟨hid', m', b', hu, hg'⟩ := renameHead_spec (head.mapId σ) new u s'
  have hcopy : CopiesAlike σ (fun c d u => c = d ∧ ∃ k, u = var k (head.renamed new))
      (fun c d u => c = d ∧ ∃ k, u = var k ((head.mapId σ).renamed new)) := by
    rintro c d c' d' w w' ⟨rfl, k, rfl⟩ ⟨rfl, k', rfl⟩ hc
    exact ⟨hc, .var k k' (head.renamed new)⟩
  obtain ⟨-, hb⟩ := hg.renumbered hσ hcopy hg' htu hs
  rw [hid, hid', ht, hu]
  have hlam : Renumbered σ (lam m (head.renamed new) b)
      (lam m' ((head.renamed new).mapId σ) b') := .lam hb
  exact ⟨hs, hlam⟩

theorem agree_renameFirst? (hσ : σ.Injective) (old new : String) (htu : Renumbered σ t u)
    (hs : Aligned σ s.id s'.id) :
    Attempt.Agree σ (Option.Rel (Renumbered σ)) (t.renameFirst? old new s)
      (u.renameFirst? old new s') := by
  induction htu generalizing s s' with
  | var _ _ _ => exact ⟨hs, .none⟩
  | @lam n m head b b' hb ih =>
    by_cases hname : head.name = old
    · rw [renameFirst?_here new n b s hname,
        renameFirst?_here new m b' s' (show (head.mapId σ).name = old from hname)]
      have hclash : clashes (head.mapId σ).id new [] b' = clashes head.id new [] b :=
        clashes_renumbered hσ head.id new [] hb
      rw [hclash]
      split
      · rfl
      · obtain ⟨hs₁, hrenamed⟩ := renameHead_renumbered hσ head new hb hs
        exact ⟨hs₁, .some hrenamed⟩
    · rw [renameFirst?_lam new n b s hname,
        renameFirst?_lam new m b' s' (show (head.mapId σ).name ≠ old from hname)]
      rcases (ih hs).cases with ⟨x, s₁, y, s₁', hx, hy, hs₁, hxy⟩ | ⟨e, s₁, s₁', hx, hy⟩
      · rw [hx, hy]
        cases hxy with
        | none => exact ⟨hs₁, .none⟩
        | some hxy => exact ⟨hs₁, .some (.lam hxy)⟩
      · rw [hx, hy]
        rfl
  | @app n m f f' a a' hfn harg hf ha =>
    rw [renameFirst?_app old new n f a s, renameFirst?_app old new m f' a' s']
    rcases (hf hs).cases with ⟨x, s₁, y, s₁', hx, hy, hs₁, hxy⟩ | ⟨e, s₁, s₁', hx, hy⟩
    · rw [hx, hy]
      cases hxy with
      | some hxy => exact ⟨hs₁, .some (.app hxy harg)⟩
      | none =>
        rcases (ha hs₁).cases with ⟨z, s₂, w, s₂', hz, hw, hs₂, hzw⟩ | ⟨e, s₂, s₂', hz, hw⟩
        · simp only [hz, hw]
          cases hzw with
          | none => exact ⟨hs₂, .none⟩
          | some hzw => exact ⟨hs₂, .some (.app hfn hzw)⟩
        · simp only [hz, hw]
          rfl
    · rw [hx, hy]
      rfl

theorem agree_rename (hσ : σ.Injective) (old new : String) (htu : Renumbered σ t u)
    (hs : Aligned σ s.id s'.id) :
    Attempt.Agree σ (Renumbered σ) (t.rename old new s) (u.rename old new s') := by
  rw [rename_eq old new t s, rename_eq old new u s']
  by_cases hname : old = new
  · simp only [rename?, if_pos hname]
    exact ⟨hs, htu⟩
  · simp only [rename?, if_neg hname]
    rcases (agree_renameFirst? hσ old new htu hs).cases with
      ⟨x, s₁, y, s₁', hx, hy, hs₁, hxy⟩ | ⟨e, s₁, s₁', hx, hy⟩
    · rw [hx, hy]
      cases hxy with
      | none => exact ⟨hs₁, htu⟩
      | some hxy => exact ⟨hs₁, hxy⟩
    · rw [hx, hy]
      rfl

end Term

/-- Executing a command from two supplies comes to the same, up to the identities that are drawn
meanwhile. -/
theorem Command.agree_execute (patience : Nat) {c : Command} (hσ : σ.Injective)
    (hc : c.term.Renumbered σ c.term) (hs : Aligned σ s.id s'.id) :
    Attempt.Agree σ (Term.Renumbered σ) (c.execute patience s) (c.execute patience s') := by
  obtain ⟨t, conversion⟩ := c
  cases conversion with
  | identity => exact ⟨hs, hc⟩
  | alpha old new => exact Term.agree_rename hσ old new hc hs
  | beta b => exact b.agree_proceed _ 0 hσ hc hs

/-- Moves all identities from `bound` on, by `k`. -/
def shiftFrom (bound k : Nat) (i : Nat) : Nat := if i < bound then i else i + k

theorem shiftFrom_injective (bound k : Nat) : (shiftFrom bound k).Injective := by
  intro i j h
  unfold shiftFrom at h
  split at h <;> split at h <;> omega

theorem shiftFrom_of_lt {bound k i : Nat} (h : i < bound) : shiftFrom bound k i = i := if_pos h

theorem aligned_shiftFrom (bound k : Nat) : Aligned (shiftFrom bound k) bound (bound + k) := by
  intro i
  unfold shiftFrom
  split <;> omega

/-- A term whose identities lie below a bound is left alone by a shift from there. -/
theorem Term.ScopedIn.renumbered_shiftFrom {bound k : Nat} (h : t.ScopedIn [] bound) :
    t.Renumbered (shiftFrom bound k) t :=
  renumbered_self
    (fun head hh => shiftFrom_of_lt (h.heads_below head (List.mem_append_right _ hh)))
    fun v hv => shiftFrom_of_lt (h.vars_below v hv)

/-- A command that is executed later gives the same outcome, up to the identities that were drawn
before or meanwhile. -/
theorem Command.agree_execute_of_le (patience : Nat) {c : Command} (hc : c.term.ScopedIn [] s.id)
    (hle : s.id ≤ s'.id) :
    Attempt.Agree (shiftFrom s.id (s'.id - s.id)) (Term.Renumbered (shiftFrom s.id (s'.id - s.id)))
      (c.execute patience s) (c.execute patience s') := by
  have hs := aligned_shiftFrom s.id (s'.id - s.id)
  rw [Nat.add_sub_cancel' hle] at hs
  exact c.agree_execute patience (shiftFrom_injective _ _) hc.renumbered_shiftFrom hs

end LambdaCalc
