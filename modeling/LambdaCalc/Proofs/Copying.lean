import LambdaCalc.Proofs.Positions
import LambdaCalc.Proofs.Sharing
import Mathlib.Logic.Function.Basic

namespace LambdaCalc.Term

/-- The heads of the lambdas around the part to which a path leads, the innermost one first. The
term itself stands inside the lambdas with the heads `scope`. -/
def enclosing (scope : List Variable) : List Branch → Term → List Variable
  | .body :: path, lam _ head body => body.enclosing (head :: scope) path
  | .fn :: path, app _ fn _ => fn.enclosing scope path
  | .arg :: path, app _ _ arg => arg.enclosing scope path
  | _, _ => scope

/-- How a part inside the lambdas `scope` begins, and how the part begins that stands in the same
place of the copy, inside the fresh lambdas `scope'`. -/
inductive RootCopied (scope scope' : List Variable) : Term → Term → Prop
  /-- The innermost lambda of the occurrence's identity stands at position `i`, and the occurrence
  becomes one of the fresh head in that position. -/
  | renewed {n m i : Nat} {v head fresh : Variable} :
      scope.findIdx? (·.id == v.id) = some i → scope[i]? = some head → scope'[i]? = some fresh →
      fresh.bound = true → fresh.name = head.name →
      RootCopied scope scope' (var n v) (var m fresh)
  /-- No lambda around it has the identity. -/
  | kept {n : Nat} {v : Variable} :
      scope.findIdx? (·.id == v.id) = none → RootCopied scope scope' (var n v) (var n v)
  | lam {n m : Nat} {head fresh : Variable} {b b' : Term} :
      fresh.bound = true → fresh.name = head.name →
      RootCopied scope scope' (lam n head b) (lam m fresh b')
  | app {n m : Nat} {f f' a a' : Term} : RootCopied scope scope' (app n f a) (app m f' a')

variable {t t' : Term} {s : Supply} {pairs : List (Variable × Variable)}

/-- Looking up an identity among old heads and their fresh ones is looking for its first
position. -/
theorem lookup_eq_findIdx? (pairs : List (Variable × Variable)) (id : Nat) :
    (pairs.map fun p => (p.1.id, p.2)).lookup id =
      ((pairs.map (·.1)).findIdx? (·.id == id)).bind ((pairs.map (·.2))[·]?) := by
  induction pairs with
  | nil => simp
  | cons p pairs ih =>
    rw [List.map_cons, List.lookup_cons, List.map_cons, List.findIdx?_cons]
    by_cases h : id = p.1.id
    · simp [h]
    · have hne : (id == p.1.id) = false := by simpa using h
      have hne' : (p.1.id == id) = false := by simpa using Ne.symm h
      simp only [hne, hne', ih, Bool.false_eq_true, if_false]
      cases (pairs.map (·.1)).findIdx? (·.id == id) <;> simp

theorem Copied.rootCopied {renewed : List (Nat × Variable)} {c d : Nat}
    (h : Copied renewed c d t t') (hr : renewed = pairs.map fun p => (p.1.id, p.2))
    (hpairs : ∀ p ∈ pairs, p.2.bound = true ∧ p.2.name = p.1.name) (path : List Branch) :
    Option.Rel
      (RootCopied (t.enclosing (pairs.map (·.1)) path) (t'.enclosing (pairs.map (·.2)) path))
      (t.at? path) (t'.at? path) := by
  induction h generalizing pairs path with
  | @renewed renewed c n m v fresh hl =>
    cases path with
    | cons branch path => cases branch <;> exact .none
    | nil =>
      rw [hr, lookup_eq_findIdx?, Option.bind_eq_some_iff] at hl
      obtain ⟨i, hi, hfresh⟩ := hl
      rw [List.getElem?_map, Option.map_eq_some_iff] at hfresh
      obtain ⟨p, hp, rfl⟩ := hfresh
      obtain ⟨hbound, hname⟩ := hpairs p (List.mem_of_getElem? hp)
      have hold : (pairs.map (·.1))[i]? = some p.1 := by simp [hp]
      have hnew : (pairs.map (·.2))[i]? = some p.2 := by simp [hp]
      exact .some (.renewed hi hold hnew hbound hname)
  | @kept renewed c n v hl =>
    cases path with
    | cons branch path => cases branch <;> exact .none
    | nil =>
      rw [hr, lookup_eq_findIdx?, Option.bind_eq_none_iff] at hl
      apply Option.Rel.some
      apply RootCopied.kept
      apply Option.eq_none_iff_forall_ne_some.mpr
      intro i hi
      have hi : (pairs.map (·.1)).findIdx? (·.id == v.id) = some i := hi
      have hlt : i < pairs.length := by
        simpa using (List.findIdx?_eq_some_iff_findIdx_eq.mp hi).1
      have hnone := hl i hi
      simp at hnone
      omega
  | @lam renewed c d n m head b b' hb ih =>
    cases path with
    | nil => exact .some (.lam rfl rfl)
    | cons branch path =>
      cases branch with
      | fn => exact .none
      | arg => exact .none
      | body =>
        let entry : Variable × Variable := (head, ⟨head.name, true, c⟩)
        have hentered : (head.id, entry.2) :: renewed =
            (entry :: pairs).map fun p => (p.1.id, p.2) := by
          rw [hr, List.map_cons]
        apply ih hentered
        intro p hp
        rcases List.mem_cons.mp hp with rfl | hp
        · exact ⟨rfl, rfl⟩
        · exact hpairs p hp
  | app _ _ hf ha =>
    cases path with
    | nil => exact .some .app
    | cons branch path =>
      cases branch with
      | body => exact .none
      | fn => exact hf hr hpairs path
      | arg => exact ha hr hpairs path

/-- A new node is made exactly for a term with a lambda. Without one nothing is drawn. -/
theorem refresh?_nil_spec (t : Term) (s : Supply) :
    (t.heads = [] ∧ refresh? [] t s = (none, s)) ∨
      t.heads ≠ [] ∧ ∃ u s', refresh? [] t s = (some u, s') := by
  induction t generalizing s with
  | var n v => exact .inl ⟨rfl, rfl⟩
  | lam n head b _ => exact .inr ⟨by simp [heads], _, _, rfl⟩
  | app n f a hf ha =>
    have he : refresh? [] (app n f a) s =
        rebuildApp f a (refresh? [] f s).1 (refresh? [] a (refresh? [] f s).2).1
          (refresh? [] a (refresh? [] f s).2).2 := rfl
    rw [he]
    rcases hf s with ⟨hfnone, hfs⟩ | ⟨hfsome, f', s₁, hfs⟩
    · rw [hfs]
      rcases ha s with ⟨hanone, has⟩ | ⟨hasome, a', s₂, has⟩
      · rw [has]
        exact .inl ⟨by simp [heads, hfnone, hanone], rfl⟩
      · rw [has]
        exact .inr ⟨by simp [heads, hasome], _, _, rfl⟩
    · rw [hfs]
      refine .inr ⟨by simp [heads, hfsome], ?_⟩
      cases (refresh? [] a s₁).1 <;> exact ⟨_, _, rfl⟩

theorem isSame_refresh_iff (ht : t.Labelled s.node) :
    (t.refresh s).1.isSame t = true ↔ t.heads = [] := by
  have hmem := t.mem_parts_self
  have hsame := (refresh?_answers [] ht.heap hmem).isSame_getD_iff hmem
    fun u hu => hu.ne ht.heap hmem
  have hcopy : (t.refresh s).1 = (refresh? [] t s).1.getD t := rfl
  rw [hcopy, hsame]
  rcases refresh?_nil_spec t s with ⟨hnone, hs⟩ | ⟨hsome, u, s', hs⟩
  · simp [hs, hnone]
  · simp [hs, hsome]

/-- Copying with a table of fresh heads that is changed on the way. A lambda enters its fresh head,
and when its body is done it puts back what stood there before. -/
def refreshByTable : Term → StateT (Nat → Option Variable) Fresh Term
  | var n v => do
    match (← get) v.id with
    | some head => newVar head
    | none => return var n v
  | lam _ head body => do
    let fresh ← Variable.newBound head.name
    let outer := (← get) head.id
    modify fun table => Function.update table head.id (some fresh)
    let body' ← refreshByTable body
    modify fun table => Function.update table head.id outer
    newLam fresh body'
  | app n fn arg => do
    let fn' ← refreshByTable fn
    let arg' ← refreshByTable arg
    keepApp n fn arg fn' arg'

/-- The table is left as it was found, so every part is copied with the heads of the lambdas around
it. -/
theorem refreshByTable_eq (renewed : List (Nat × Variable)) (t : Term) (s : Supply) :
    refreshByTable t (renewed.lookup ·) s =
      (((refreshByNode renewed t s).1, (renewed.lookup ·)), (refreshByNode renewed t s).2) := by
  induction t generalizing renewed s with
  | var n v =>
    change (match renewed.lookup v.id with
      | some head => (newVar head : StateT (Nat → Option Variable) Fresh Term)
      | none => return var n v) (renewed.lookup ·) s = _
    simp only [refreshByNode]
    cases renewed.lookup v.id <;> rfl
  | lam n head b ih =>
    let fresh : Variable := ⟨head.name, true, s.id⟩
    let table := Function.update (renewed.lookup ·) head.id (some fresh)
    have hentered : table = (((head.id, fresh) :: renewed).lookup ·) := by
      funext i
      by_cases hi : i = head.id
      · simp [table, hi]
      · have hne : (i == head.id) = false := by simpa using hi
        simp [table, List.lookup_cons, hi, hne]
    have hrestored : Function.update table head.id (renewed.lookup head.id) =
        (renewed.lookup ·) := by
      rw [Function.update_idem]
      exact Function.update_eq_self head.id _
    have hbody := ih ((head.id, fresh) :: renewed) { s with id := s.id + 1 }
    rw [← hentered] at hbody
    let r := refreshByTable b table { s with id := s.id + 1 }
    have he : refreshByTable (lam n head b) (renewed.lookup ·) s =
        (((newLam fresh r.1.1 r.2).1, Function.update r.1.2 head.id (renewed.lookup head.id)),
          (newLam fresh r.1.1 r.2).2) := rfl
    rw [he, show r = _ from hbody, hrestored]
    rfl
  | app n f a hf ha =>
    let rf := refreshByTable f (renewed.lookup ·) s
    let ra := refreshByTable a rf.1.2 rf.2
    have he : refreshByTable (app n f a) (renewed.lookup ·) s =
        (((keepApp n f a rf.1.1 ra.1.1 ra.2).1, ra.1.2), (keepApp n f a rf.1.1 ra.1.1 ra.2).2) :=
      rfl
    have hfn : rf = _ := hf renewed s
    have harg : ra = refreshByTable a rf.1.2 rf.2 := rfl
    rw [hfn, ha renewed] at harg
    rw [he, harg, hfn]
    rfl

/-- A copy has the shape of the term. The identities of its lambdas are the next ones of the supply,
in the order in which the lambdas are written, and no others are drawn. An occurrence with a lambda
of its identity around it becomes a bound one of the fresh head of the innermost such lambda, and
every other one stays as it is, so the copy reads as the term does. It is the term's own node
exactly if there is no lambda. To copy with one table that is changed and put back comes to the
same. -/
theorem refresh_consecutive (hids : ∀ i ∈ t.ids, i < s.id) (ht : t.Labelled s.node) :
    (∀ path, Option.Rel
        (RootCopied (t.enclosing [] path) ((t.refresh s).1.enclosing [] path))
        (t.at? path) ((t.refresh s).1.at? path)) ∧
      (t.refresh s).1.heads.map Variable.id = List.range' s.id t.heads.length ∧
      (t.refresh s).2.id = s.id + t.heads.length ∧
      (t.refresh s).1.nameless = t.nameless ∧
      ((t.refresh s).1.isSame t = true ↔ t.heads = []) ∧
      refreshByTable t (fun _ => none) s =
        (((t.refresh s).1, fun _ => none), (t.refresh s).2) := by
  have hcopied := refresh_copied t s
  obtain ⟨hsupply, hheads⟩ := hcopied.heads_eq
  have hvars : ∀ v ∈ t.vars, v.id < s.id := by
    intro v hv
    apply hids
    exact List.mem_map_of_mem (List.mem_append_right _ hv)
  have hreading := hcopied.namelessIn_eq [] hvars (Nat.le_refl _) (by simp) (by simp)
  refine ⟨?_, hheads, hsupply, hreading, isSame_refresh_iff ht, ?_⟩
  · intro path
    have hnone : ([] : List (Nat × Variable)) =
        ([] : List (Variable × Variable)).map fun p => (p.1.id, p.2) := rfl
    exact hcopied.rootCopied hnone (by simp) path
  · have htable := refreshByTable_eq [] t s
    rw [refreshByNode_eq [] ht.heap t.mem_parts_self] at htable
    exact htable

/-- Two lambdas and an occurrence outside of them share one identity. The name of the occurrence
below the inner lambda is that of the outer one. -/
def repeatedHeads : Term :=
  let x : Variable := ⟨"x", true, 0⟩
  app 7 (lam 5 x (app 4 (lam 2 ⟨"y", true, 0⟩ (var 1 x)) (var 3 x))) (var 6 x)

/-- Each occurrence of `repeatedHeads` finds its own lambda, and the one outside none. -/
theorem refresh_consecutive_repeatedHeads :
    (∀ i ∈ repeatedHeads.ids, i < 1) ∧ repeatedHeads.Labelled 8 ∧
      (repeatedHeads.refresh ⟨1, 8⟩).1.heads.map Variable.id = [1, 2] ∧
      (repeatedHeads.refresh ⟨1, 8⟩).1.nameless = repeatedHeads.nameless ∧
      (repeatedHeads.refresh ⟨1, 8⟩).1.isSame repeatedHeads = false ∧
      (repeatedHeads.refresh ⟨1, 8⟩).1.vars =
        [⟨"y", true, 2⟩, ⟨"x", true, 1⟩, ⟨"x", true, 0⟩] := by
  have hids : ∀ i ∈ repeatedHeads.ids, i < 1 := by decide
  have ht : repeatedHeads.Labelled 8 := by constructor <;> decide
  obtain ⟨-, hheads, -, hreading, hsame, -⟩ := refresh_consecutive (s := ⟨1, 8⟩) hids ht
  refine ⟨hids, ht, hheads, hreading, ?_, by decide⟩
  rw [← Bool.not_eq_true, hsame]
  decide

end LambdaCalc.Term
