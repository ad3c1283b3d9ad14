import LambdaCalc.Proofs.Capture
import LambdaCalc.Proofs.Positions

namespace LambdaCalc

/-- `w` stands in the place of `v` after a lambda took the name `new`. It has the same identity and
the same flag, and another name, which is `new`, exactly if it is `affected`. -/
structure Variable.Kept (v w : Variable) (new : String) (affected : Prop) : Prop where
  id_eq : w.id = v.id
  bound_eq : w.bound = v.bound
  name_ne_iff : w.name ≠ v.name ↔ affected
  name_eq : affected → w.name = new

namespace Term

/-- Two terms begin with the same node, but for the name of its variable. A head is affected if
`here` says so, and an occurrence if it belongs to the lambda `first`. -/
inductive RootKept (first : Variable) (new : String) (here : Prop) : Term → Term → Prop
  | var {n m : Nat} {v w : Variable} :
      v.Kept w new (v.bound = true ∧ v.id = first.id) →
      RootKept first new here (var n v) (var m w)
  | lam {n m : Nat} {v w : Variable} {b b' : Term} :
      v.Kept w new here → RootKept first new here (lam n v b) (lam m w b')
  | app {n m : Nat} {f f' a a' : Term} : RootKept first new here (app n f a) (app m f' a')

variable {t u : Term} {path place : List Branch} {scope : List Variable} {bound : Nat}
  {head first : Variable} {old new : String}

theorem First.at? {body : Term} (h : First old head body t) :
    ∃ place n, t.at? place = some (Term.lam n head body) := by
  induction h with
  | here n _ => exact ⟨[], n, rfl⟩
  | lam _ _ ih =>
    obtain ⟨place, n, h⟩ := ih
    exact ⟨.body :: place, n, h⟩
  | fn _ ih =>
    obtain ⟨place, n, h⟩ := ih
    exact ⟨.fn :: place, n, h⟩
  | arg _ _ ih =>
    obtain ⟨place, n, h⟩ := ih
    exact ⟨.arg :: place, n, h⟩

theorem First.name_eq {body : Term} (h : First old head body t) : head.name = old := by
  induction h with
  | here _ hname => exact hname
  | lam _ _ ih => exact ih
  | fn _ ih => exact ih
  | arg _ _ ih => exact ih

theorem at?_withName (t : Term) (path : List Branch) :
    (t.withName head new).at? path = (t.at? path).map (·.withName head new) := by
  induction path generalizing t with
  | nil => rfl
  | cons branch path ih =>
    cases branch <;> cases t <;> simp only [withName, at?, Option.map_none, ih]

/-- Alike terms have alike parts in the same places. -/
theorem at?_of_alike (h : t.alike u = true) (path : List Branch) :
    Option.Rel (fun x y => x.alike y = true) (t.at? path) (u.at? path) := by
  induction path generalizing t u with
  | nil => exact .some h
  | cons branch path ih =>
    cases t <;> cases u <;> simp only [alike, Bool.and_eq_true, Bool.false_eq_true] at h
    · cases branch <;> exact .none
    · cases branch
      · exact ih h.2
      · exact .none
      · exact .none
    · cases branch
      · exact .none
      · exact ih h.1
      · exact ih h.2

/-- No two places of a well-scoped term hold lambdas of one identity. -/
theorem ScopedIn.place_unique (h : t.ScopedIn scope bound) {n m : Nat} {v w : Variable}
    {b c : Term} (hp : t.at? path = some (lam n v b)) (hq : t.at? place = some (lam m w c))
    (hid : v.id = w.id) : path = place := by
  induction path generalizing t scope place with
  | nil =>
    cases place with
    | nil => rfl
    | cons branch place =>
      cases hp
      cases branch <;> simp only [Term.at?, reduceCtorEq] at hq
      exact absurd (hid ▸ List.mem_map_of_mem (heads_of_at? hq w List.mem_cons_self))
        h.body.head_notMem
  | cons branch path ih =>
    have hv {u : Term} (hu : u.at? path = some (lam n v b)) : v ∈ u.heads :=
      heads_of_at? hu v List.mem_cons_self
    cases place with
    | nil =>
      cases hq
      cases branch <;> simp only [Term.at?, reduceCtorEq] at hp
      exact absurd (hid ▸ List.mem_map_of_mem (hv hp)) h.body.head_notMem
    | cons branch' place =>
      have hw {u : Term} (hu : u.at? place = some (lam m w c)) : w.id ∈ u.ids :=
        List.mem_map_of_mem (List.mem_append_left _ (heads_of_at? hu w List.mem_cons_self))
      cases branch <;> cases branch' <;> cases t <;>
        simp only [Term.at?, reduceCtorEq] at hp hq
      · rw [ih h.body hp hq]
      · rw [ih h.fn hp hq]
      · exact absurd (hw hq) (hid ▸ h.head_notMem_ids.1 v (hv hp))
      · exact absurd (hw hq) (hid ▸ h.head_notMem_ids.2 v (hv hp))
      · rw [ih h.arg hp hq]

/-- The occurrences of a lambda's variable are flagged as bound and have its name. -/
theorem ScopedIn.name_of_mem_heads (h : t.ScopedIn scope bound) (hh : head ∈ t.heads)
    {v : Variable} (hv : v ∈ t.vars) (hid : v.id = head.id) :
    v.bound = true ∧ v.name = head.name := by
  have hmem : head ∈ scope ++ t.heads := List.mem_append_right _ hh
  have hb : v.bound = true := by
    by_contra hfree
    exact h.apart v hv (by simpa using hfree) (hid ▸ List.mem_map_of_mem hmem)
  rw [vars_eq_map_occurrences t scope] at hv
  obtain ⟨o, ho, rfl⟩ := List.mem_map.mp hv
  obtain ⟨x, hx, hxid, hname⟩ := (resolved_iff t scope).mp h.resolved o ho hb
  have he : x = head := List.inj_on_of_nodup_map h.distinct (mem_of_mem_scope ho hx) hmem
    (hxid.trans hid)
  exact ⟨hb, he ▸ hname.symm⟩

/-- The name of a variable that is flagged as bound does not matter for the reading. -/
theorem namelessIn_withName (h : t.Resolved scope)
    (hb : ∀ v ∈ t.vars, v.id = head.id → v.bound = true) :
    (t.withName head new).namelessIn (scope.map Variable.id) =
      t.namelessIn (scope.map Variable.id) := by
  induction t generalizing scope with
  | var n v =>
    by_cases hid : v.id = head.id
    · obtain ⟨x, hx, hxid, -⟩ := h (hb v List.mem_cons_self hid)
      have hmem : v.id ∈ scope.map Variable.id := List.mem_map.mpr ⟨x, hx, hxid⟩
      simp only [withName, namelessIn, Variable.id_withName, hmem, if_true]
    · rw [withName, Variable.withName_of_ne hid]
  | lam n v b ih =>
    have hbody : (b.withName head new).namelessIn ((v :: scope).map Variable.id) =
        b.namelessIn ((v :: scope).map Variable.id) := ih h hb
    simp only [withName, namelessIn, Variable.id_withName]
    exact congrArg Nameless.lam hbody
  | app n f a hf ha =>
    have hfn := hf h.1 fun v hv => hb v (List.mem_append_left _ hv)
    have harg := ha h.2 fun v hv => hb v (List.mem_append_right _ hv)
    simp only [withName, namelessIn, hfn, harg]

theorem namelessIn_of_alike (h : t.alike u = true) (scope : List Nat) :
    t.namelessIn scope = u.namelessIn scope := by
  induction t generalizing u scope with
  | var n v =>
    cases u <;> simp only [alike, Bool.false_eq_true, beq_iff_eq] at h
    rw [h]
    rfl
  | lam n v b ih =>
    cases u <;> simp only [alike, Bool.false_eq_true, Bool.and_eq_true, beq_iff_eq] at h
    simp only [namelessIn, h.1, ih h.2]
  | app n f a hf ha =>
    cases u <;> simp only [alike, Bool.false_eq_true, Bool.and_eq_true] at h
    simp only [namelessIn, hf h.1, ha h.2]

theorem rootKept_withName (ht : t.ScopedIn [] bound) {n : Nat} {body u' : Term}
    (hplace : t.at? place = some (lam n first body)) (hnew : first.name ≠ new)
    (hu : t.at? path = some u) (halike : u'.alike (u.withName first new) = true) :
    RootKept first new (path = place) u u' := by
  have hfirst : first ∈ t.heads := heads_of_at? hplace first List.mem_cons_self
  cases u with
  | var m v =>
    cases u' <;> simp only [withName, alike, Bool.false_eq_true, beq_iff_eq] at halike
    subst halike
    have hown := ht.name_of_mem_heads hfirst (mem_vars_of_at? hu)
    by_cases hid : v.id = first.id
    · obtain ⟨hb, hname⟩ := hown hid
      rw [Variable.withName_of_eq hid]
      refine .var ⟨rfl, rfl, ?_, fun _ => rfl⟩
      exact iff_of_true (fun he => hnew (hname.symm.trans he.symm)) ⟨hb, hid⟩
    · rw [Variable.withName_of_ne hid]
      refine .var ⟨rfl, rfl, ?_, fun he => absurd he.2 hid⟩
      exact iff_of_false (fun he => he rfl) fun he => hid he.2
  | lam m v b =>
    cases u' <;>
      simp only [withName, alike, Bool.false_eq_true, Bool.and_eq_true, beq_iff_eq] at halike
    rw [halike.1]
    by_cases hid : v.id = first.id
    · have hpath : path = place := ht.place_unique hu hplace hid
      obtain ⟨rfl, rfl, rfl⟩ : m = n ∧ v = first ∧ b = body := by
        rw [hpath, hplace] at hu
        simpa [eq_comm] using hu
      rw [Variable.withName_of_eq rfl]
      exact .lam ⟨rfl, rfl, iff_of_true (Ne.symm hnew) hpath, fun _ => rfl⟩
    · rw [Variable.withName_of_ne hid]
      have hpath : path ≠ place := by
        rintro rfl
        rw [hu] at hplace
        cases hplace
        exact hid rfl
      exact .lam ⟨rfl, rfl, iff_of_false (fun he => he rfl) hpath, fun he => absurd he hpath⟩
  | app m f a =>
    cases u' <;> simp only [withName, alike, Bool.false_eq_true, Bool.and_eq_true] at halike
    exact .app

theorem nameless_of_alike_withName (ht : t.ScopedIn [] bound) (hfirst : first ∈ t.heads)
    (h : u.alike (t.withName first new) = true) : u.nameless = t.nameless := by
  have hb : ∀ v ∈ t.vars, v.id = first.id → v.bound = true :=
    fun v hv hid => (ht.name_of_mem_heads hfirst hv hid).1
  rw [nameless, namelessIn_of_alike h]
  exact namelessIn_withName ht.resolved hb

theorem at?_of_alike_withName (ht : t.ScopedIn [] bound) {n : Nat} {body : Term}
    (hplace : t.at? place = some (lam n first body)) (hnew : first.name ≠ new)
    (h : u.alike (t.withName first new) = true) (path : List Branch) :
    Option.Rel (RootKept first new (path = place)) (t.at? path) (u.at? path) := by
  have hrel := at?_of_alike h path
  rw [at?_withName] at hrel
  cases ht' : t.at? path <;> cases hu : u.at? path <;> rw [ht', hu] at hrel <;> cases hrel
  · exact .none
  · next halike => exact .some (rootKept_withName ht hplace hnew ht' halike)

/-- Renaming has no effect without a lambda of the old name. With one, it is refused exactly if some
occurrence in the body of the first such lambda clashes with the new name, and otherwise the renamed
term has the same reading and the same nodes, identities and flags at every place. The first lambda
gets the new name, as do the occurrences that it binds, and these places aside all names stay as
they are. -/
theorem rename_first_only (s : Supply) (hne : old ≠ new) (ht : t.WellScoped bound)
    (hflag : t.Flagged) :
    (t.heads.find? (·.name == old) = none → t.rename old new s = .ok t s) ∧
    ∀ first, t.heads.find? (·.name == old) = some first →
      ∃ place n body, t.at? place = some (lam n first body) ∧
        ((∃ e s', t.rename old new s = .error e s') ↔
          ∃ o ∈ body.occurrences [], o.clashes first.id new = true) ∧
        (∀ e s', t.rename old new s = .error e s' → e = .nameClash old new) ∧
        ∀ t' s', t.rename old new s = .ok t' s' → t'.nameless = t.nameless ∧
          ∀ path, Option.Rel (RootKept first new (path = place)) (t.at? path) (t'.at? path) := by
  have hin := (wellScoped_iff bound t).mp ht
  constructor
  · intro hnone
    exact rename_of_forall_ne hne (by simpa [List.find?_eq_none] using hnone) s
  · intro first hfind
    obtain ⟨body, hfirst⟩ := exists_first hfind
    obtain ⟨place, n, hplace⟩ := hfirst.at?
    have hnew : first.name ≠ new := hfirst.name_eq ▸ hne
    have hclash : clashes first.id new [] body = true ↔
        ∃ o ∈ body.occurrences [], o.clashes first.id new = true := by
      rw [clashes_eq_any, List.any_eq_true]
    refine ⟨place, n, body, hplace, ?_⟩
    rw [← hclash]
    rcases hfirst.rename hin hflag hne s with ⟨hc, t', s', hr, halike⟩ | ⟨hc, s', hr⟩
    · rw [hc, hr]
      refine ⟨iff_of_false ?_ Bool.false_ne_true, ?_, ?_⟩
      · rintro ⟨e, s₁, ⟨⟩⟩
      · rintro e s₁ ⟨⟩
      · rintro _ _ ⟨⟩
        exact ⟨nameless_of_alike_withName hin hfirst.mem_heads halike,
          at?_of_alike_withName hin hplace hnew halike⟩
    · rw [hc, hr]
      refine ⟨iff_of_true ⟨_, s', rfl⟩ rfl, ?_, ?_⟩
      · rintro _ _ ⟨⟩
        rfl
      · rintro u s₁ ⟨⟩

/-- A free `x` is applied to a lambda called `x` that has another one inside, below which it occurs
as well. A third lambda called `x` comes last. -/
def repeatedNames : Term :=
  app 0 (app 1 (var 2 ⟨"x", false, 0⟩)
    (lam 3 ⟨"x", true, 1⟩ (app 4 (var 5 ⟨"x", true, 1⟩)
      (lam 6 ⟨"x", true, 2⟩ (app 7 (var 8 ⟨"x", true, 1⟩) (var 9 ⟨"x", true, 2⟩))))))
    (lam 10 ⟨"x", true, 3⟩ (var 11 ⟨"x", true, 3⟩))

/-- Of the four variables called `x` in `repeatedNames` only that of the first lambda is renamed,
with an occurrence that is not its own by the names alone. -/
theorem rename_first_only_repeatedNames :
    repeatedNames.WellScoped 4 ∧ repeatedNames.Flagged ∧ ¬repeatedNames.NameFaithful ∧
      ∃ t' s', repeatedNames.rename "x" "y" ⟨4, 12⟩ = .ok t' s' ∧
        t'.nameless = repeatedNames.nameless ∧
        t'.text = "((x) \\y . (y) \\x . (y) x) \\x . x" := by
  have ht : repeatedNames.WellScoped 4 := by constructor <;> decide
  have hflag : repeatedNames.Flagged := by decide
  have hne : "x" ≠ "y" := by decide
  obtain ⟨place, n, body, -, -, -, hok⟩ :=
    (rename_first_only ⟨4, 12⟩ hne ht hflag).2 ⟨"x", true, 1⟩ (by decide)
  exact ⟨ht, hflag, by decide, _, _, rfl, (hok _ _ rfl).1, by decide⟩

end Term

end LambdaCalc
