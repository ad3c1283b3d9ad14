import LambdaCalc.Proofs.Capture
import LambdaCalc.Proofs.Positions
import LambdaCalc.Proofs.Sharing

namespace LambdaCalc

namespace Term

/-- The path leads to an occurrence that gives way to another term in a substitution for the
identity: it is flagged as bound, and no lambda on the way has the identity. -/
def IsHit (id : Nat) : List Branch → Term → Prop
  | [], var _ v => v.bound = true ∧ v.id = id
  | .body :: path, lam _ head body => head.id ≠ id ∧ body.IsHit id path
  | .fn :: path, app _ fn _ => fn.IsHit id path
  | .arg :: path, app _ _ arg => arg.IsHit id path
  | _, _ => False

/-- Every part of `t` in which no touched place lies stands in the same place of `u`, as the same
node. -/
def KeepsBeside (touched : List Branch → Prop) (t u : Term) : Prop :=
  ∀ path part, t.at? path = some part → (∀ below, ¬touched (path ++ below)) →
    u.at? path = some part

/-- The place of the first lambda of the name: an outer one comes before an inner one, and those of
a function before those of its argument. -/
def firstPlace? (name : String) : Term → Option (List Branch)
  | var _ _ => none
  | lam _ head body =>
    if head.name = name then some [] else (body.firstPlace? name).map (.body :: ·)
  | app _ fn arg =>
    ((fn.firstPlace? name).map (.fn :: ·)).or ((arg.firstPlace? name).map (.arg :: ·))

/-- The place of the lambda itself, or that of an occurrence which it binds. -/
def OfLambda (place : List Branch) (head : Variable) (body : Term) (path : List Branch) : Prop :=
  path = place ∨ ∃ inner, path = place ++ .body :: inner ∧ body.IsHit head.id inner

/-- `t'` is `t` with its first lambda of the old name renamed, and what is put back together around
that lambda gets new labels. -/
inductive FirstRenamed (old new : String) : Supply → Supply → Term → Term → Prop
  | here {s : Supply} {n : Nat} {head : Variable} {b : Term} :
      head.name = old →
      FirstRenamed old new s (renameHead head new b s).2 (lam n head b) (renameHead head new b s).1
  | lam {s s' : Supply} {n : Nat} {head : Variable} {b b' : Term} :
      head.name ≠ old → FirstRenamed old new s s' b b' →
      FirstRenamed old new s { s' with node := s'.node + 1 } (lam n head b) (lam s'.node head b')
  | fn {s s' : Supply} {n : Nat} {f f' a : Term} :
      FirstRenamed old new s s' f f' →
      FirstRenamed old new s { s' with node := s'.node + 1 } (app n f a) (app s'.node f' a)
  | arg {s s' : Supply} {n : Nat} {f a a' : Term} :
      (∀ head ∈ f.heads, head.name ≠ old) → FirstRenamed old new s s' a a' →
      FirstRenamed old new s { s' with node := s'.node + 1 } (app n f a) (app s'.node f a')

/-- The place of the leftmost outermost redex. -/
def redexPlace? : Term → Option (List Branch)
  | var _ _ => none
  | lam _ _ body => body.redexPlace?.map (.body :: ·)
  | app _ fn arg =>
    if fn.isLam then some []
    else (fn.redexPlace?.map (.fn :: ·)).or (arg.redexPlace?.map (.arg :: ·))

variable {t u : Term} {s s' : Supply} {id : Nat} {copy : Fresh Term} {path place : List Branch}
  {nodes : List Term} {touched touched' : List Branch → Prop}

namespace KeepsBeside

theorem refl (touched : List Branch → Prop) (t : Term) : KeepsBeside touched t t := by
  intro path part hpart _
  exact hpart

theorem mono (h : KeepsBeside touched t u) (hsub : ∀ path, touched path → touched' path) :
    KeepsBeside touched' t u := by
  intro path part hpart hclear
  apply h path part hpart
  intro below hbelow
  exact hclear below (hsub _ hbelow)

theorem lam {n m : Nat} {head head' : Variable} {b b' : Term}
    (hroot : (∀ path, ¬touched path) → Term.lam m head' b' = Term.lam n head b)
    (hb : KeepsBeside (fun path => touched (.body :: path)) b b') :
    KeepsBeside touched (Term.lam n head b) (Term.lam m head' b') := by
  intro path part hpart hclear
  cases path with
  | nil => rw [hroot hclear, hpart]
  | cons branch path =>
    cases branch with
    | body => exact hb path part hpart hclear
    | fn => cases hpart
    | arg => cases hpart

theorem app {n m : Nat} {f f' a a' : Term}
    (hroot : (∀ path, ¬touched path) → Term.app m f' a' = Term.app n f a)
    (hf : KeepsBeside (fun path => touched (.fn :: path)) f f')
    (ha : KeepsBeside (fun path => touched (.arg :: path)) a a') :
    KeepsBeside touched (Term.app n f a) (Term.app m f' a') := by
  intro path part hpart hclear
  cases path with
  | nil => rw [hroot hclear, hpart]
  | cons branch path =>
    cases branch with
    | body => cases hpart
    | fn => exact hf path part hpart hclear
    | arg => exact ha path part hpart hclear

section Touched

variable {b b' f f' a a' : Term} {inner : List Branch → Prop} {n m : Nat} {head head' : Variable}

theorem lam_of_touched (hplace : touched (.body :: place)) (hb : KeepsBeside inner b b')
    (hinner : ∀ path, inner path → touched (.body :: path)) :
    KeepsBeside touched (Term.lam n head b) (Term.lam m head' b') := by
  apply KeepsBeside.lam
  · intro hclear
    exact absurd hplace (hclear _)
  · exact hb.mono hinner

theorem fn_of_touched (hplace : touched (.fn :: place)) (hf : KeepsBeside inner f f')
    (hinner : ∀ path, inner path → touched (.fn :: path)) :
    KeepsBeside touched (Term.app n f a) (Term.app m f' a) := by
  apply KeepsBeside.app
  · intro hclear
    exact absurd hplace (hclear _)
  · exact hf.mono hinner
  · exact .refl _ a

theorem arg_of_touched (hplace : touched (.arg :: place)) (ha : KeepsBeside inner a a')
    (hinner : ∀ path, inner path → touched (.arg :: path)) :
    KeepsBeside touched (Term.app n f a) (Term.app m f a') := by
  apply KeepsBeside.app
  · intro hclear
    exact absurd hplace (hclear _)
  · exact .refl _ f
  · exact ha.mono hinner

end Touched

end KeepsBeside

theorem IsHit.exists_var (h : t.IsHit id path) :
    ∃ n v, t.at? path = some (var n v) ∧ v.bound = true ∧ v.id = id := by
  induction path generalizing t with
  | nil =>
    cases t with
    | var n v => exact ⟨n, v, rfl, h⟩
    | lam n head b => cases h
    | app n f a => cases h
  | cons branch path ih =>
    cases branch <;> cases t <;> try cases h
    · next hid hb => exact ih hb
    · exact ih h
    · exact ih h

theorem substitute?_of_forall_not_isHit (h : ∀ path, ¬t.IsHit id path) (s : Supply) :
    t.substitute? id copy s = (none, s) := by
  induction t generalizing s with
  | var n v =>
    have hv : (v.bound && v.id == id) = false := by
      have hmiss := h []
      simpa [IsHit] using hmiss
    simp only [substitute?, hv]
    rfl
  | lam n head b ih =>
    by_cases hid : head.id = id
    · simp only [substitute?, hid, if_true]
      rfl
    · have hb := ih (fun path hpath => h (.body :: path) ⟨hid, hpath⟩) s
      rw [substitute?_lam hid, hb]
      rfl
  | app n f a hf ha =>
    have hfn := hf (fun path hpath => h (.fn :: path) hpath) s
    have harg := ha (fun path hpath => h (.arg :: path) hpath) s
    rw [substitute?_app, hfn, harg]
    rfl

/-- An occurrence that gives way to another node makes new nodes all the way up. -/
theorem exists_substitute?_of_isHit {r : Term} (h : t.IsHit id path) (hr : t.at? path ≠ some r)
    (s : Supply) : ∃ u s', t.substitute? id (pure r) s = (some u, s') := by
  induction path generalizing t s with
  | nil =>
    cases t with
    | lam n head b => cases h
    | app n f a => cases h
    | var n v =>
      obtain ⟨hbound, hid⟩ := h
      have hne : r ≠ var n v := by
        intro he
        apply hr
        rw [he]
        rfl
      have hv : (v.bound && v.id == id) = true := by simp [hbound, hid]
      simp only [substitute?, hv, if_true]
      change ∃ u s', ((if r = var n v then none else some r), s) = (some u, s')
      rw [if_neg hne]
      exact ⟨r, s, rfl⟩
  | cons branch path ih =>
    cases branch <;> cases t <;> try cases h
    · next n head b hid hb =>
      obtain ⟨b', s', hs⟩ := ih hb hr s
      rw [substitute?_lam hid, hs]
      exact ⟨_, _, rfl⟩
    · next n f a =>
      obtain ⟨f', s', hs⟩ := ih h hr s
      rw [substitute?_app, hs]
      cases (a.substitute? id (pure r) s').1 <;> exact ⟨_, _, rfl⟩
    · next n f a =>
      obtain ⟨a', s', hs⟩ := ih h hr (f.substitute? id (pure r) s).2
      rw [substitute?_app, hs]
      cases (f.substitute? id (pure r) s).1 <;> exact ⟨_, _, rfl⟩

theorem substitute_of_forall_not_isHit (h : ∀ path, ¬t.IsHit id path) (s : Supply) :
    t.substitute id copy s = (t, s) := by
  change ((t.substitute? id copy s).1.getD t, (t.substitute? id copy s).2) = _
  rw [substitute?_of_forall_not_isHit h]
  rfl

/-- Outside of the occurrences that give way all nodes are kept. -/
theorem keepsBeside_substitute (id : Nat) (copy : Fresh Term) (t : Term) (s : Supply) :
    KeepsBeside (fun path => t.IsHit id path) t (t.substitute id copy s).1 := by
  have hroot {t : Term} {s : Supply} (h : ∀ path, ¬t.IsHit id path) :
      (t.substitute id copy s).1 = t := by
    rw [substitute_of_forall_not_isHit h]
  induction t generalizing s with
  | var n v =>
    intro path part hpart hclear
    cases path with
    | cons branch path => cases branch <;> cases hpart
    | nil =>
      rw [hroot, hpart]
      exact hclear
  | lam n head b ih =>
    by_cases hid : head.id = id
    · rw [substitute_shadow hid]
      exact .refl _ _
    · obtain ⟨m, he, -⟩ := exists_substitute_lam (n := n) hid copy b s
      have hkept := hroot (t := lam n head b) (s := s)
      rw [he] at hkept ⊢
      apply KeepsBeside.lam hkept
      apply (ih s).mono
      intro path hpath
      exact ⟨hid, hpath⟩
  | app n f a hf ha =>
    obtain ⟨m, he, -⟩ := exists_substitute_app id n copy f a s
    have hkept := hroot (t := app n f a) (s := s)
    rw [he] at hkept ⊢
    exact .app hkept (hf s) (ha _)

theorem pure_answers {r : Term} (h : Heap nodes s.node) (hr : r ∈ nodes) :
    Answers nodes s (some ((pure r : Fresh Term) s).1) ((pure r : Fresh Term) s).2
      fun u => u = r ∨ New s u := by
  refine ⟨nodes, .refl h, ?_⟩
  rintro u ⟨⟩
  exact ⟨hr, .inl rfl⟩

/-- The node itself comes back exactly if nothing gives way. -/
theorem isSame_substitute_iff {r : Term} (h : Heap nodes s.node) (ht : t ∈ nodes) (hr : r ∈ nodes)
    (hself : ∀ path, t.IsHit id path → t.at? path ≠ some r) :
    (t.substitute id (pure r) s).1.isSame t = true ↔ ∀ path, ¬t.IsHit id path := by
  have hsame := (substitute?_answers id pure_answers h ht hr).isSame_getD_iff ht fun u hu => hu.1
  have he : (t.substitute id (pure r) s).1 = (t.substitute? id (pure r) s).1.getD t := rfl
  rw [he, hsame]
  constructor
  · intro hnone path hpath
    obtain ⟨u, s', hs⟩ := exists_substitute?_of_isHit hpath (hself path hpath) s
    rw [hs] at hnone
    cases hnone
  · intro hnone
    rw [substitute?_of_forall_not_isHit hnone]

theorem firstPlace?_eq_none_iff {name : String} :
    t.firstPlace? name = none ↔ ∀ head ∈ t.heads, head.name ≠ name := by
  induction t with
  | var n v => simp [firstPlace?, heads]
  | lam n head b ih =>
    by_cases hname : head.name = name
    · simp [firstPlace?, heads, hname]
    · simp [firstPlace?, heads, hname, ih]
  | app n f a hf ha =>
    simp only [firstPlace?, Option.or_eq_none_iff, Option.map_eq_none_iff, hf, ha, heads,
      List.mem_append, or_imp, forall_and]

theorem OfLambda.cons {head : Variable} {body : Term} (branch : Branch)
    (h : OfLambda place head body path) :
    OfLambda (branch :: place) head body (branch :: path) := by
  rcases h with rfl | ⟨inner, rfl, hhit⟩
  · exact .inl rfl
  · exact .inr ⟨inner, rfl, hhit⟩

/-- Renaming answers nothing only if there is no lambda of the old name. -/
theorem forall_ne_of_renameFirst? {old new : String} (h : t.renameFirst? old new s = .ok none s') :
    (∀ head ∈ t.heads, head.name ≠ old) ∧ s' = s := by
  obtain ⟨s₁, -, ⟨hnone, -⟩ | ⟨t', -, hs⟩ | hs⟩ := renameFirst?_spec old new t s
  · rw [renameFirst?_of_forall_ne s hnone] at h
    cases h
    exact ⟨hnone, rfl⟩
  · rw [hs] at h
    cases h
  · rw [hs] at h
    cases h

theorem firstRenamed_of_renameFirst? {old new : String} {t' : Term}
    (h : t.renameFirst? old new s = .ok (some t') s') : FirstRenamed old new s s' t t' := by
  induction t generalizing s s' t' with
  | var n v => cases h
  | lam n head b ih =>
    by_cases hname : head.name = old
    · cases hc : clashes head.id new [] b with
      | true =>
        simp only [renameFirst?, hname, hc, if_true] at h
        cases h
      | false =>
        simp only [renameFirst?, hname, hc, if_true] at h
        cases h
        exact .here hname
    · rw [renameFirst?_lam new n b s hname] at h
      rcases hb : b.renameFirst? old new s with ⟨_ | b', s₁⟩ | ⟨e, s₁⟩ <;> rw [hb] at h <;> cases h
      exact .lam hname (ih hb)
  | app n f a hf ha =>
    rw [renameFirst?_app] at h
    rcases hfn : f.renameFirst? old new s with ⟨_ | f', s₁⟩ | ⟨e, s₁⟩ <;> rw [hfn] at h
    · obtain ⟨hnone, rfl⟩ := forall_ne_of_renameFirst? hfn
      rcases harg : a.renameFirst? old new s₁ with ⟨_ | a', s₂⟩ | ⟨e, s₂⟩ <;>
        simp only [harg] at h <;> cases h
      exact .arg hnone (ha harg)
    · cases h
      exact .fn (hf hfn)
    · cases h

/-- Below the first lambda of the old name and beside it all nodes are kept. -/
theorem FirstRenamed.keepsBeside {old new : String} {t' : Term}
    (h : FirstRenamed old new s s' t t') :
    ∃ place n head body, t.firstPlace? old = some place ∧
      t.at? place = some (Term.lam n head body) ∧ t.heads.find? (·.name == old) = some head ∧
      KeepsBeside (OfLambda place head body) t t' := by
  induction h with
  | @here n head b hname =>
    refine ⟨[], n, head, b, by simp [firstPlace?, hname], rfl, by simp [heads, hname], ?_⟩
    apply KeepsBeside.lam
    · intro hclear
      exact absurd (.inl rfl) (hclear [])
    · apply (keepsBeside_substitute head.id _ b _).mono
      intro path hpath
      exact .inr ⟨path, rfl, hpath⟩
  | lam hname _ ih =>
    obtain ⟨place, m, first, body, hfirst, hplace, hfind, hkept⟩ := ih
    refine ⟨.body :: place, m, first, body, by simp [firstPlace?, hname, hfirst], hplace,
      by simpa [heads, hname] using hfind, ?_⟩
    exact hkept.lam_of_touched (.inl rfl) fun path hpath => hpath.cons .body
  | fn _ ih =>
    obtain ⟨place, m, first, body, hfirst, hplace, hfind, hkept⟩ := ih
    refine ⟨.fn :: place, m, first, body, by simp [firstPlace?, hfirst], hplace,
      by simp [heads, List.find?_append, hfind], ?_⟩
    exact hkept.fn_of_touched (.inl rfl) fun path hpath => hpath.cons .fn
  | @arg s' n f a a' hnone _ ih =>
    obtain ⟨place, m, first, body, hfirst, hplace, hfind, hkept⟩ := ih
    have hfplace := firstPlace?_eq_none_iff.mpr hnone
    have hffind : f.heads.find? (·.name == old) = none := by
      simpa [List.find?_eq_none] using hnone
    refine ⟨.arg :: place, m, first, body, by simp [firstPlace?, hfplace, hfirst], hplace,
      by simp [heads, List.find?_append, hffind, hfind], ?_⟩
    exact hkept.arg_of_touched (.inl rfl) fun path hpath => hpath.cons .arg

/-- A lambda of the old name is put back together as a new node. -/
theorem renameHead_answers (head : Variable) (new : String) {b : Term} (h : Heap nodes s.node)
    (hb : b ∈ nodes) :
    Answers nodes s (some (renameHead head new b s).1) (renameHead head new b s).2 (New s) := by
  obtain ⟨nodes₁, hg₁, hmem₁⟩ := newVar_answers h (head.renamed new)
  have hb₁ := hg₁.subset hb
  have hbody := (substitute?_answers head.id pure_answers hg₁.heap hb₁ (hmem₁ _ rfl).1).getD hb₁
  obtain ⟨nodes₂, hg₂, hmem₂⟩ := hbody
  exact (newLam_answers hg₂.heap (head.renamed new) (hmem₂ _ rfl).1).after (hg₁.trans hg₂)

theorem FirstRenamed.answers {old new : String} {t' : Term} (hr : FirstRenamed old new s s' t t')
    (h : Heap nodes s.node) (ht : t ∈ nodes) : Answers nodes s (some t') s' (New s) := by
  induction hr generalizing nodes with
  | here _ => exact renameHead_answers _ new h (h.body ht)
  | lam _ _ ih =>
    obtain ⟨nodes₁, hg, hmem⟩ := ih h (h.body ht)
    exact (newLam_answers hg.heap _ (hmem _ rfl).1).after hg
  | fn _ ih =>
    obtain ⟨nodes₁, hg, hmem⟩ := ih h (h.fn ht)
    exact (newApp_answers hg.heap (hmem _ rfl).1 (hg.subset (h.arg ht))).after hg
  | arg _ _ ih =>
    obtain ⟨nodes₁, hg, hmem⟩ := ih h (h.arg ht)
    exact (newApp_answers hg.heap (hg.subset (h.fn ht)) (hmem _ rfl).1).after hg

theorem renameFirst?_answers {old new : String} {t' : Option Term} (h : Heap nodes s.node)
    (ht : t ∈ nodes) (hs : t.renameFirst? old new s = .ok t' s') :
    Answers nodes s t' s' (New s) := by
  cases t' with
  | none =>
    obtain ⟨-, rfl⟩ := forall_ne_of_renameFirst? hs
    exact answers_none h _
  | some t' => exact (firstRenamed_of_renameFirst? hs).answers h ht

/-- The node itself comes back exactly if there was nothing to rename. -/
theorem isSame_rename_iff {old new : String} {t' : Term} (h : Heap nodes s.node) (ht : t ∈ nodes)
    (hs : t.rename old new s = .ok t' s') :
    t'.isSame t = true ↔ old = new ∨ ∀ head ∈ t.heads, head.name ≠ old := by
  have he := rename_eq old new t s
  rw [hs] at he
  by_cases hname : old = new
  · simp only [rename?, hname, if_true] at he
    cases he
    simp [hname, isSame_refl]
  · simp only [rename?, hname, if_false] at he
    cases hr : t.renameFirst? old new s with
    | error e s₁ =>
      rw [hr] at he
      cases he
    | ok answer s₁ =>
      rw [hr] at he
      cases he
      have hsame := (renameFirst?_answers h ht hr).isSame_getD_iff ht fun v hv => hv.ne h ht
      simp only [hsame, hname, false_or]
      constructor
      · rintro rfl
        exact (forall_ne_of_renameFirst? hr).1
      · intro hnone
        rw [renameFirst?_of_forall_ne s hnone] at hr
        cases hr
        rfl

/-- Renaming a lambda together with its occurrences. -/
def renameHeadByNode (head : Variable) (new : String) (body : Term) : Fresh Term := do
  let occurrence ← newVar (head.renamed new)
  newLam (head.renamed new) (← body.substituteByNode head.id (pure occurrence))

/-- Renaming the first lambda of the old name, or handing back the node itself if there is none. -/
def renameFirstByNode (old new : String) : Term → Attempt Term
  | var n v => return var n v
  | lam n head body => do
    if head.name = old then
      if clashes head.id new [] body then throw (.nameClash old new)
      else renameHeadByNode head new body
    else keepLam n head body (← renameFirstByNode old new body)
  | app n fn arg => do
    let fn' ← renameFirstByNode old new fn
    if !fn'.isSame fn then newApp fn' arg
    else keepApp n fn arg fn (← renameFirstByNode old new arg)

def renameByNode (old new : String) (t : Term) : Attempt Term :=
  if old = new then return t else t.renameFirstByNode old new

theorem renameHeadByNode_eq (head : Variable) (new : String) {b : Term} (h : Heap nodes s.node)
    (hb : b ∈ nodes) : renameHeadByNode head new b s = renameHead head new b s := by
  let occurrence := newVar (head.renamed new) s
  obtain ⟨nodes₁, hg, hmem⟩ := newVar_answers h (head.renamed new)
  have hbody : b.substituteByNode head.id (pure occurrence.1) occurrence.2 =
      b.substitute head.id (pure occurrence.1) occurrence.2 :=
    substituteByNode_eq pure_answers (fun _ _ => rfl) hg.heap (hg.subset hb) (hmem _ rfl).1
  change newLam (head.renamed new)
    (b.substituteByNode head.id (pure occurrence.1) occurrence.2).1
    (b.substituteByNode head.id (pure occurrence.1) occurrence.2).2 = _
  rw [hbody]
  rfl

theorem renameFirstByNode_lam {old : String} {head : Variable} (new : String) (n : Nat) (b : Term)
    (s : Supply) (hname : head.name ≠ old) :
    (lam n head b).renameFirstByNode old new s =
      match b.renameFirstByNode old new s with
      | .ok b' s' => .ok (keepLam n head b b' s').1 (keepLam n head b b' s').2
      | .error e s' => .error e s' := by
  simp only [renameFirstByNode, hname, if_false]
  change EStateM.bind _ _ _ = _
  unfold EStateM.bind
  cases b.renameFirstByNode old new s <;> rfl

theorem renameFirstByNode_app (old new : String) (n : Nat) (f a : Term) (s : Supply) :
    (app n f a).renameFirstByNode old new s =
      match f.renameFirstByNode old new s with
      | .ok f' s' =>
        if f'.isSame f then
          match a.renameFirstByNode old new s' with
          | .ok a' s' => .ok (keepApp n f a f a' s').1 (keepApp n f a f a' s').2
          | .error e s' => .error e s'
        else .ok (app s'.node f' a) { s' with node := s'.node + 1 }
      | .error e s' => .error e s' := by
  simp only [renameFirstByNode]
  change EStateM.bind _ _ _ = _
  unfold EStateM.bind
  cases f.renameFirstByNode old new s with
  | error e s' => rfl
  | ok f' s' =>
    cases hsame : f'.isSame f with
    | false => simp only [hsame]; rfl
    | true =>
      simp only [hsame]
      change EStateM.bind _ _ _ = _
      unfold EStateM.bind
      cases a.renameFirstByNode old new s' <;> rfl

/-- To ask whether the node came back is to ask whether there was something to rename. -/
theorem renameFirstByNode_eq (old new : String) (h : Heap nodes s.node) (ht : t ∈ nodes) :
    t.renameFirstByNode old new s =
      match t.renameFirst? old new s with
      | .ok t' s' => .ok (t'.getD t) s'
      | .error e s' => .error e s' := by
  induction t generalizing nodes s with
  | var n v => rfl
  | lam n head b ih =>
    by_cases hname : head.name = old
    · cases hc : clashes head.id new [] b with
      | true =>
        simp only [renameFirstByNode, renameFirst?, hname, hc, if_true]
        rfl
      | false =>
        have hhead := renameHeadByNode_eq head new h (h.body ht)
        simp only [renameFirstByNode, renameFirst?, hname, hc, if_true]
        change EStateM.Result.ok (renameHeadByNode head new b s).1
          (renameHeadByNode head new b s).2 = _
        rw [hhead]
        rfl
    · rw [renameFirstByNode_lam new n b s hname, renameFirst?_lam new n b s hname,
        ih h (h.body ht)]
      cases hb : b.renameFirst? old new s with
      | error e s₁ => rfl
      | ok b' s₁ =>
        have hne := (renameFirst?_answers h (h.body ht) hb).isSame_eq_false (h.body ht)
          fun u hu => hu.ne h (h.body ht)
        simp only [keepLam_eq n head b b' s₁ hne]
  | app n f a hf ha =>
    rw [renameFirstByNode_app, renameFirst?_app, hf h (h.fn ht)]
    rcases hfn : f.renameFirst? old new s with ⟨_ | f', s₁⟩ | ⟨e, s₁⟩
    · obtain ⟨nodes₁, hg, -⟩ := renameFirst?_answers h (h.fn ht) hfn
      have harg := hg.subset (h.arg ht)
      simp only [Option.getD_none, isSame_refl, if_true, ha hg.heap harg]
      cases ha : a.renameFirst? old new s₁ with
      | error e s₂ => rfl
      | ok a' s₂ =>
        have hne := (renameFirst?_answers hg.heap harg ha).isSame_eq_false harg
          fun u hu => hu.ne hg.heap harg
        have hkeep := keepApp_eq n f a none a' s₂
          (fun _ hu => absurd hu (Option.not_mem_none _)) hne
        rw [Option.getD_none] at hkeep
        simp only [hkeep]
    · have hne := (renameFirst?_answers h (h.fn ht) hfn).isSame_eq_false (h.fn ht)
        (fun u hu => hu.ne h (h.fn ht)) f' rfl
      simp only [Option.getD_some, hne, Bool.false_eq_true, if_false]
    · rfl

theorem renameByNode_eq (old new : String) (h : Heap nodes s.node) (ht : t ∈ nodes) :
    t.renameByNode old new s = t.rename old new s := by
  rw [rename_eq, renameByNode, rename?]
  split
  · rfl
  · exact renameFirstByNode_eq old new h ht

theorem redexPlace?_eq_none_iff : t.redexPlace? = none ↔ t.hasRedex = false := by
  induction t with
  | var n v => simp [redexPlace?, hasRedex]
  | lam n head b ih => simp [redexPlace?, hasRedex, ih]
  | app n f a hf ha =>
    cases hl : f.isLam with
    | true => simp [redexPlace?, hasRedex, hl]
    | false => simp [redexPlace?, hasRedex, hl, hf, ha]

/-- A step changes nothing but the contracted redex and the way to it. -/
theorem keepsBeside_step? {t' : Term} (h : t.step? s = (some t', s')) :
    ∃ place n m head body arg, t.redexPlace? = some place ∧
      t.at? place = some (Term.app n (Term.lam m head body) arg) ∧
      t'.at? place = some (contract head body arg s).1 ∧
      KeepsBeside (fun path => place <+: path) t t' := by
  have hinside {place : List Branch} (branch : Branch) (path : List Branch)
      (hpath : place <+: path) : branch :: place <+: branch :: path :=
    List.cons_prefix_cons.mpr ⟨rfl, hpath⟩
  induction t generalizing s s' t' with
  | var n v => cases h
  | lam n head b ih =>
    rw [step?_lam] at h
    rcases hb : b.step? s with ⟨_ | b', s₁⟩ <;> rw [hb] at h <;> cases h
    obtain ⟨place, k, m, x, body, arg, hfirst, hplace, hdone, hkept⟩ := ih hb
    refine ⟨.body :: place, k, m, x, body, arg, by simp [redexPlace?, hfirst], hplace, hdone, ?_⟩
    exact hkept.lam_of_touched (List.prefix_refl _) (hinside .body)
  | app n f a hf ha =>
    cases hl : f.isLam with
    | true =>
      cases f with
      | var _ _ => simp [isLam] at hl
      | app _ _ _ => simp [isLam] at hl
      | lam m head b =>
        have ht' : t' = (contract head b a s).1 := by
          cases h
          rfl
        refine ⟨[], n, m, head, b, a, by simp [redexPlace?, isLam], rfl, by rw [ht']; rfl, ?_⟩
        intro path part _ hclear
        exact absurd List.nil_prefix (hclear [])
    | false =>
      rw [step?_app n f a s hl] at h
      rcases hfn : f.step? s with ⟨_ | f', s₁⟩ <;> rw [hfn] at h
      · obtain ⟨hnormal, rfl⟩ := normal_of_step? hfn
        have hfplace := redexPlace?_eq_none_iff.mpr hnormal
        rcases harg : a.step? s₁ with ⟨_ | a', s₂⟩ <;> simp only [harg] at h <;> cases h
        obtain ⟨place, k, m, x, body, arg, hfirst, hplace, hdone, hkept⟩ := ha harg
        refine ⟨.arg :: place, k, m, x, body, arg, by simp [redexPlace?, hl, hfplace, hfirst],
          hplace, hdone, ?_⟩
        exact hkept.arg_of_touched (List.prefix_refl _) (hinside .arg)
      · cases h
        obtain ⟨place, k, m, x, body, arg, hfirst, hplace, hdone, hkept⟩ := hf hfn
        refine ⟨.fn :: place, k, m, x, body, arg, by simp [redexPlace?, hl, hfirst], hplace, hdone,
          ?_⟩
        exact hkept.fn_of_touched (List.prefix_refl _) (hinside .fn)

/-- The question for the node tells whether a term was changed, and what was not changed is the same
node as before. A substitution hands its node back exactly if no occurrence gives way, and keeps
every part without one. A renaming that succeeds hands it back exactly if there is nothing to
rename, and keeps every part that is neither around the first lambda of the old name nor around an
occurrence which that lambda binds. A step keeps every part outside of the contracted redex. Asking
for nodes on the way comes to the same. -/
theorem keeps_untouched_nodes (h : Heap nodes s.node) (ht : t ∈ nodes) :
    (∀ id, ∀ r ∈ nodes, (∀ path, t.IsHit id path → t.at? path ≠ some r) →
      ((t.substitute id (pure r) s).1.isSame t = true ↔ ∀ path, ¬t.IsHit id path) ∧
      KeepsBeside (fun path => t.IsHit id path) t (t.substitute id (pure r) s).1 ∧
      t.substituteByNode id (pure r) s = t.substitute id (pure r) s) ∧
    (∀ old new, t.renameByNode old new s = t.rename old new s ∧
      ∀ t' s', t.rename old new s = .ok t' s' →
        (t'.isSame t = true ↔ old = new ∨ ∀ head ∈ t.heads, head.name ≠ old) ∧
        (old ≠ new → (∃ head ∈ t.heads, head.name = old) →
          ∃ place n head body, t.firstPlace? old = some place ∧
            t.at? place = some (Term.lam n head body) ∧
            t.heads.find? (·.name == old) = some head ∧
            KeepsBeside (OfLambda place head body) t t')) ∧
    t.stepByNode s = t.step s ∧
    (t.hasRedex = true → ∃ place n m head body arg, t.redexPlace? = some place ∧
      t.at? place = some (Term.app n (Term.lam m head body) arg) ∧
      (t.step s).1.at? place = some (contract head body arg s).1 ∧
      KeepsBeside (fun path => place <+: path) t (t.step s).1) := by
  refine ⟨?_, ?_, stepByNode_eq h ht, ?_⟩
  · intro id r hr hself
    exact ⟨isSame_substitute_iff h ht hr hself, keepsBeside_substitute id (pure r) t s,
      substituteByNode_eq pure_answers (fun _ _ => rfl) h ht hr⟩
  · intro old new
    refine ⟨renameByNode_eq old new h ht, ?_⟩
    intro t' s' hs
    refine ⟨isSame_rename_iff h ht hs, ?_⟩
    intro hne ⟨head, hhead, hname⟩
    have he := rename_eq old new t s
    rw [hs] at he
    simp only [rename?, hne, if_false] at he
    rcases hr : t.renameFirst? old new s with ⟨_ | u, s₁⟩ | ⟨e, s₁⟩ <;> rw [hr] at he <;> cases he
    · exact absurd hname ((forall_ne_of_renameFirst? hr).1 head hhead)
    · exact (firstRenamed_of_renameFirst? hr).keepsBeside
  · intro hredex
    exact keepsBeside_step? (step?_of_hasRedex hredex s)

/-- One node stands in three places: beside a redex, in the body of its lambda and as its
argument. -/
def sharedThrice : Term :=
  let x : Variable := ⟨"x", true, 0⟩
  let y : Variable := ⟨"y", true, 1⟩
  let shared := app 2 (var 0 y) (var 1 y)
  lam 8 y (app 7 shared (app 6 (lam 5 x (app 4 (var 3 x) shared)) shared))

/-- A step of `sharedThrice` keeps the node beside the redex, and renaming the `x` keeps it in all
three places. -/
theorem keeps_untouched_nodes_sharedThrice :
    Heap sharedThrice.parts 9 ∧ sharedThrice ∈ sharedThrice.parts ∧
      (sharedThrice.step ⟨2, 9⟩).1.at? [.body, .fn] = sharedThrice.at? [.body, .fn] ∧
      (∀ r ∈ sharedThrice.parts,
        (sharedThrice.substitute 2 (pure r) ⟨2, 9⟩).1.isSame sharedThrice = true) ∧
      ∃ t' s', sharedThrice.rename "x" "w" ⟨2, 9⟩ = .ok t' s' ∧ t'.isSame sharedThrice = false ∧
        ∀ path ∈ [[.body, .fn], [.body, .arg, .fn, .body, .arg], [.body, .arg, .arg]],
          t'.at? path = sharedThrice.at? [.body, .fn] := by
  have ht : sharedThrice.Labelled 9 := by constructor <;> decide
  have hmem := sharedThrice.mem_parts_self
  obtain ⟨hsubstitute, hrename, -, hstep⟩ := keeps_untouched_nodes (s := ⟨2, 9⟩) ht.heap hmem
  refine ⟨ht.heap, hmem, ?_, ?_, ?_⟩
  · obtain ⟨place, n, m, head, body, arg, hplace, -, -, hkept⟩ := hstep (by decide)
    have hplace : place = [.body, .arg] := by
      have he : sharedThrice.redexPlace? = some [.body, .arg] := by decide
      rw [he] at hplace
      cases hplace
      rfl
    apply hkept [.body, .fn] _ rfl
    intro below hbelow
    simp [hplace, List.cons_prefix_cons] at hbelow
  · have hnone (path : List Branch) : ¬sharedThrice.IsHit 2 path := by
      intro hhit
      obtain ⟨n, v, hv, -, hid⟩ := hhit.exists_var
      have hids : ∀ v ∈ sharedThrice.vars, v.id ≠ 2 := by decide
      exact hids v (mem_vars_of_at? hv) hid
    intro r hr
    apply (hsubstitute 2 r hr ?_).1.mpr hnone
    intro path hhit
    exact absurd hhit (hnone path)
  · obtain ⟨t', s', hs⟩ : ∃ t' s', sharedThrice.rename "x" "w" ⟨2, 9⟩ = .ok t' s' := ⟨_, _, rfl⟩
    have hsame := ((hrename "x" "w").2 t' s' hs).1
    refine ⟨t', s', hs, ?_, ?_⟩
    · rw [← Bool.not_eq_true, hsame]
      decide
    · cases hs
      decide

end Term

end LambdaCalc
