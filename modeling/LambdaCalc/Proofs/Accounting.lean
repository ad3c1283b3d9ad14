import LambdaCalc.Proofs.Keeping

namespace LambdaCalc

/-- The order in which the places of a term are written: an outer place comes before what is inside
it, and a function before its argument. -/
def Precedes : List Branch → List Branch → Prop := List.Lex fun a b => a = .fn ∧ b = .arg

namespace Term

/-- The places of the occurrences that give way in a substitution for the identity. -/
def hits (id : Nat) : Term → List (List Branch)
  | var _ v => if v.bound && v.id == id then [[]] else []
  | lam _ head body => if head.id = id then [] else (body.hits id).map (.body :: ·)
  | app _ fn arg => (fn.hits id).map (.fn :: ·) ++ (arg.hits id).map (.arg :: ·)

/-- A redex stands in the place. -/
def RedexAt (t : Term) (path : List Branch) : Prop :=
  ∃ n m head body arg, t.at? path = some (app n (lam m head body) arg)

/-- A redex of a term. Outside of it stand the lambdas of `before` and of `after`. -/
structure Redex (t : Term) where
  place : List Branch
  head : Variable
  body : Term
  arg : Term
  before : List Variable
  after : List Variable
  at_place : ∃ n m, t.at? place = some (app n (lam m head body) arg)
  heads_eq : t.heads = before ++ (head :: (body.heads ++ arg.heads) ++ after)

namespace Redex

variable {t : Term}

/-- The leftmost outermost redex. -/
def IsFirst (r : t.Redex) : Prop := ∀ path, t.RedexAt path → path = r.place ∨ Precedes r.place path

/-- The lambdas that a contraction takes away, and those that it leaves. -/
theorem heads_perm (r : t.Redex) :
    t.heads.Perm ((r.head :: r.arg.heads) ++ (r.before ++ (r.body.heads ++ r.after))) := by
  rw [r.heads_eq, List.perm_iff_count]
  intro x
  simp only [List.cons_append, List.count_cons, List.count_append]
  omega

/-- A term that is a redex. -/
def whole (n m : Nat) (head : Variable) (body arg : Term) :
    (app n (lam m head body) arg).Redex where
  place := []
  head := head
  body := body
  arg := arg
  before := []
  after := []
  at_place := ⟨n, m, rfl⟩
  heads_eq := by simp [heads]

def inBody (r : t.Redex) (n : Nat) (head : Variable) : (lam n head t).Redex where
  __ := r
  place := .body :: r.place
  before := head :: r.before
  at_place := r.at_place
  heads_eq := congrArg (head :: ·) r.heads_eq

def inFn (r : t.Redex) (n : Nat) (arg : Term) : (app n t arg).Redex where
  __ := r
  place := .fn :: r.place
  after := r.after ++ arg.heads
  at_place := r.at_place
  heads_eq := by simp [heads, r.heads_eq]

def inArg (r : t.Redex) (n : Nat) (fn : Term) : (app n fn t).Redex where
  __ := r
  place := .arg :: r.place
  before := fn.heads ++ r.before
  at_place := r.at_place
  heads_eq := by simp [heads, r.heads_eq]

end Redex

/-- Of these heads the ones from before the supply came to `bound` are `old`. The others have the
next `drawn` identities from `c` on. Both are in the order of the list. -/
structure Interleaved (bound : Nat) (old : List Variable) (c drawn : Nat)
    (heads : List Variable) : Prop where
  old_eq : heads.filter (·.id < bound) = old
  drawn_eq : (heads.filter (bound ≤ ·.id)).map Variable.id = List.range' c drawn

/-- What the contraction of a redex makes of the term, while the supply goes from `c` to `d`. -/
structure Contraction {t : Term} (r : t.Redex) (c d : Nat) (u : Term) : Prop where
  place_eq : t.redexPlace? = some r.place
  supply_eq : d = c + (r.body.hits r.head.id).length * r.arg.heads.length
  interleaved : Interleaved c (r.before ++ (r.body.heads ++ r.after)) c
    ((r.body.hits r.head.id).length * r.arg.heads.length) u.heads
  exists_copy : ∀ i hit, (r.body.hits r.head.id)[i]? = some hit → ∃ copy,
    u.at? (r.place ++ hit) = some copy ∧
      Copied [] (c + i * r.arg.heads.length) (c + (i + 1) * r.arg.heads.length) r.arg copy

variable {t u b b' f a arg : Term} {s : Supply} {scope : List Variable} {path place : List Branch}
  {bound c d e id n m : Nat} {head : Variable}

namespace Interleaved

variable {old old' heads heads' : List Variable}

theorem of_old (h : ∀ x ∈ old, x.id < bound) (c : Nat) : Interleaved bound old c 0 old := by
  constructor
  · simpa using h
  · simpa using h

theorem of_drawn (hc : bound ≤ c) (h : heads.map Variable.id = List.range' c n) :
    Interleaved bound [] c n heads := by
  have hle : ∀ x ∈ heads, bound ≤ x.id := by
    intro x hx
    have hmem : x.id ∈ List.range' c n := h ▸ List.mem_map_of_mem hx
    rw [List.mem_range'_1] at hmem
    omega
  constructor
  · simpa using hle
  · rw [List.filter_eq_self.mpr (by simpa using hle), h]

theorem append (h : Interleaved bound old c n heads)
    (h' : Interleaved bound old' (c + n) m heads') :
    Interleaved bound (old ++ old') c (n + m) (heads ++ heads') := by
  constructor
  · rw [List.filter_append, h.old_eq, h'.old_eq]
  · rw [List.filter_append, List.map_append, h.drawn_eq, h'.drawn_eq, List.range'_append_1]

theorem prepend (h : Interleaved bound old c n heads) (hfront : ∀ x ∈ old', x.id < bound) :
    Interleaved bound (old' ++ old) c n (old' ++ heads) := by
  have happ := (of_old hfront c).append h
  rwa [Nat.zero_add] at happ

theorem extend (h : Interleaved bound old c n heads) (hback : ∀ x ∈ old', x.id < bound) :
    Interleaved bound (old ++ old') c n (heads ++ old') :=
  h.append (of_old hback _)

end Interleaved

@[simp] theorem hits_hit {v : Variable} (hb : v.bound = true) (hid : v.id = id) :
    (var n v).hits id = [[]] := by
  simp [hits, hb, hid]

@[simp] theorem hits_miss {v : Variable} (h : ¬(v.bound = true ∧ v.id = id)) :
    (var n v).hits id = [] := by
  simpa [hits] using h

@[simp] theorem hits_shadow (hid : head.id = id) : (lam n head b).hits id = [] := by
  simp [hits, hid]

@[simp] theorem hits_lam (hid : head.id ≠ id) :
    (lam n head b).hits id = (b.hits id).map (.body :: ·) := by
  simp [hits, hid]

@[simp] theorem hits_app :
    (app n f a).hits id = (f.hits id).map (.fn :: ·) ++ (a.hits id).map (.arg :: ·) := rfl

/-- A substitution draws one identity for each lambda of each copy. -/
theorem Grafted.supply_eq (h : Grafted id (fun c d u => Copied [] c d arg u) c d b b') :
    d = c + (b.hits id).length * arg.heads.length := by
  induction h with
  | hit hb hid hu => simpa [hb, hid] using hu.heads_eq.1
  | miss hmiss => simp [hmiss]
  | shadow hid => simp [hid]
  | lam hid _ ih => simpa [hid] using ih
  | app _ _ hf ha => simp [ha, hf, Nat.add_mul, Nat.add_assoc]

theorem Grafted.interleaved (h : Grafted id (fun c d u => Copied [] c d arg u) c d b b')
    (hold : ∀ x ∈ b.heads, x.id < bound) (hc : bound ≤ c) :
    Interleaved bound b.heads c ((b.hits id).length * arg.heads.length) b'.heads := by
  induction h with
  | hit hb hid hu =>
    rw [hits_hit hb hid, List.length_singleton, Nat.one_mul]
    exact .of_drawn hc hu.heads_eq.2
  | miss hmiss =>
    rw [hits_miss hmiss, List.length_nil, Nat.zero_mul]
    exact .of_old hold _
  | shadow hid =>
    rw [hits_shadow hid, List.length_nil, Nat.zero_mul]
    exact .of_old hold _
  | @lam c d n m head b b' hid _ ih =>
    obtain ⟨hhead, hbody⟩ := List.forall_mem_cons.mp hold
    rw [hits_lam hid, List.length_map]
    exact (ih hbody hc).prepend (List.forall_mem_singleton.mpr hhead)
  | app hgf _ hf ha =>
    obtain ⟨holdf, holda⟩ := List.forall_mem_append.mp hold
    have hd := hgf.supply_eq
    have harg := ha holda (by omega)
    rw [hd] at harg
    rw [hits_app, List.length_append, List.length_map, List.length_map, Nat.add_mul]
    exact (hf holdf hc).append harg

/-- The copies take their identities one after the other, from left to right. -/
theorem Grafted.exists_copy (h : Grafted id (fun c d u => Copied [] c d arg u) c d b b')
    {i : Nat} {hit : List Branch} (hi : (b.hits id)[i]? = some hit) :
    ∃ copy, b'.at? hit = some copy ∧
      Copied [] (c + i * arg.heads.length) (c + (i + 1) * arg.heads.length) arg copy := by
  induction h generalizing i hit with
  | @hit c d n v u hb hid hu =>
    rw [hits_hit hb hid] at hi
    obtain ⟨rfl, rfl⟩ : i = 0 ∧ [] = hit := by simpa [List.getElem?_singleton] using hi
    rw [hu.heads_eq.1] at hu
    refine ⟨u, rfl, ?_⟩
    simpa using hu
  | miss hmiss =>
    rw [hits_miss hmiss] at hi
    cases hi
  | shadow hid =>
    rw [hits_shadow hid] at hi
    cases hi
  | lam hid _ ih =>
    rw [hits_lam hid, List.getElem?_map, Option.map_eq_some_iff] at hi
    obtain ⟨inner, hi, rfl⟩ := hi
    exact ih hi
  | @app c d e n m f f' a a' hgf _ hf ha =>
    rw [hits_app, List.getElem?_append] at hi
    split at hi
    · rw [List.getElem?_map, Option.map_eq_some_iff] at hi
      obtain ⟨inner, hi, rfl⟩ := hi
      exact hf hi
    · next hge =>
      rw [List.length_map] at hi hge
      rw [List.getElem?_map, Option.map_eq_some_iff] at hi
      obtain ⟨inner, hi, rfl⟩ := hi
      obtain ⟨copy, hat, hcopy⟩ := ha hi
      refine ⟨copy, hat, ?_⟩
      -- The copies in the function came first and have as many identities as the supply advanced.
      obtain ⟨j, rfl⟩ : ∃ j, i = (f.hits id).length + j := ⟨i - (f.hits id).length, by omega⟩
      have hd := hgf.supply_eq
      simpa [hd, Nat.add_mul, Nat.add_assoc] using hcopy

theorem hits_sorted (id : Nat) (t : Term) : (t.hits id).Pairwise Precedes := by
  induction t with
  | var n v =>
    rw [hits]
    split <;> simp
  | lam n head b ih =>
    rw [hits]
    split
    · exact .nil
    · exact List.pairwise_map.mpr (ih.imp .cons)
  | app n f a hf ha =>
    rw [hits]
    refine List.pairwise_append.mpr ⟨List.pairwise_map.mpr (hf.imp .cons),
      List.pairwise_map.mpr (ha.imp .cons), ?_⟩
    intro p hp q hq
    obtain ⟨p, -, rfl⟩ := List.mem_map.mp hp
    obtain ⟨q, -, rfl⟩ := List.mem_map.mp hq
    exact .rel ⟨rfl, rfl⟩

theorem mem_hits_iff : path ∈ t.hits id ↔ t.IsHit id path := by
  induction t generalizing path with
  | var n v =>
    by_cases hv : v.bound = true ∧ v.id = id
    · rw [hits_hit hv.1 hv.2]
      cases path with
      | nil => simp [IsHit, hv]
      | cons branch path => simp [IsHit]
    · rw [hits_miss hv]
      cases path with
      | nil => simp [IsHit, hv]
      | cons branch path => simp [IsHit]
  | lam n head b ih =>
    by_cases hid : head.id = id
    · rw [hits_shadow hid]
      cases path with
      | nil => simp [IsHit]
      | cons branch path => cases branch <;> simp [IsHit, hid]
    · rw [hits_lam hid]
      cases path with
      | nil => simp [IsHit]
      | cons branch path => cases branch <;> simp [IsHit, hid, ih]
  | app n f a hf ha =>
    rw [hits_app]
    cases path with
    | nil => simp [IsHit]
    | cons branch path => cases branch <;> simp [IsHit, hf, ha]

namespace ScopedIn

/-- An occurrence that has the identity of a lambda around the term is bound. -/
theorem bound_of_mem {v : Variable} (h : (var n v).ScopedIn scope bound)
    (hid : v.id ∈ scope.map Variable.id) : v.bound = true := by
  by_contra hb
  refine h.apart v List.mem_cons_self (by simpa using hb) ?_
  simpa [heads] using hid

/-- No lambda of a term has the identity of one around it. -/
theorem ne_of_mem (h : (lam n head b).ScopedIn scope bound) (hid : id ∈ scope.map Variable.id) :
    head.id ≠ id := by
  rintro rfl
  have hd := h.body.distinct
  simp only [List.cons_append, List.map_cons, List.map_append, List.nodup_cons, List.mem_append,
    not_or] at hd
  exact hd.1.1 hid

theorem isHit_iff (h : t.ScopedIn scope bound) (hid : id ∈ scope.map Variable.id) :
    t.IsHit id path ↔ ∃ n v, t.at? path = some (var n v) ∧ v.id = id := by
  constructor
  · intro hhit
    obtain ⟨n, v, hat, -, hv⟩ := hhit.exists_var
    exact ⟨n, v, hat, hv⟩
  · rintro ⟨n, v, hat, rfl⟩
    induction path generalizing t scope with
    | nil =>
      cases hat
      exact ⟨h.bound_of_mem hid, rfl⟩
    | cons branch path ih =>
      cases branch <;> cases t <;> simp only [at?, reduceCtorEq] at hat
      · exact ⟨h.ne_of_mem hid, ih h.body hat (List.mem_cons_of_mem _ hid)⟩
      · have hfn := ih h.fn hat hid
        exact hfn
      · have harg := ih h.arg hat hid
        exact harg

theorem length_hits (h : t.ScopedIn scope bound) (hid : id ∈ scope.map Variable.id) :
    (t.hits id).length = (t.vars.map Variable.id).count id := by
  induction t generalizing scope with
  | var n v =>
    by_cases hv : v.id = id
    · simp [hits_hit (h.bound_of_mem (hv ▸ hid)) hv, vars, hv]
    · have hmiss : ¬(v.bound = true ∧ v.id = id) := fun hb => hv hb.2
      simp [hits_miss hmiss, vars, hv]
  | lam n head b ih =>
    rw [hits_lam (h.ne_of_mem hid), List.length_map]
    exact ih h.body (List.mem_cons_of_mem _ hid)
  | app n f a hf ha =>
    simp only [hits_app, vars, List.length_append, List.length_map, List.map_append,
      List.count_append, hf h.fn hid, ha h.arg hid]

end ScopedIn

theorem RedexAt.hasRedex (h : t.RedexAt path) : t.hasRedex = true := by
  induction path generalizing t with
  | nil =>
    obtain ⟨n, m, head, b, a, hat⟩ := h
    cases hat
    rfl
  | cons branch path ih =>
    obtain ⟨n, m, head, b, a, hat⟩ := h
    cases branch <;> cases t <;> simp only [at?, reduceCtorEq] at hat
    · have hb := ih ⟨n, m, head, b, a, hat⟩
      exact hb
    · simp [Term.hasRedex, ih ⟨n, m, head, b, a, hat⟩]
    · simp [Term.hasRedex, ih ⟨n, m, head, b, a, hat⟩]

theorem RedexAt.of_lam (h : (lam n head b).RedexAt path) :
    ∃ inner, path = .body :: inner ∧ b.RedexAt inner := by
  obtain ⟨k, m, x, body, a, hat⟩ := h
  cases path with
  | nil => cases hat
  | cons branch path =>
    cases branch with
    | body => exact ⟨path, rfl, k, m, x, body, a, hat⟩
    | fn => cases hat
    | arg => cases hat

theorem RedexAt.of_app (h : (app n f a).RedexAt path) (hf : f.isLam = false) :
    (∃ inner, path = .fn :: inner ∧ f.RedexAt inner) ∨
      ∃ inner, path = .arg :: inner ∧ a.RedexAt inner := by
  obtain ⟨k, m, x, body, b, hat⟩ := h
  cases path with
  | nil =>
    cases hat
    simp [isLam] at hf
  | cons branch path =>
    cases branch with
    | body => cases hat
    | fn => exact .inl ⟨path, rfl, k, m, x, body, b, hat⟩
    | arg => exact .inr ⟨path, rfl, k, m, x, body, b, hat⟩

/-- Every other redex comes behind the one that a step contracts. -/
theorem RedexAt.eq_or_precedes (hpath : t.RedexAt path) (h : t.redexPlace? = some place) :
    path = place ∨ Precedes place path := by
  induction t generalizing place path with
  | var n v => cases h
  | lam n head b ih =>
    obtain ⟨first, hfirst, rfl⟩ := Option.map_eq_some_iff.mp h
    obtain ⟨inner, rfl, hinner⟩ := hpath.of_lam
    exact (ih hinner hfirst).imp (congrArg _) .cons
  | app n f a hf ha =>
    cases hl : f.isLam with
    | true =>
      obtain rfl : [] = place := by simpa [redexPlace?, hl] using h
      cases path with
      | nil => exact .inl rfl
      | cons branch path => exact .inr .nil
    | false =>
      rw [redexPlace?, hl, if_neg Bool.false_ne_true, Option.or_eq_some_iff, Option.map_eq_some_iff,
        Option.map_eq_none_iff, Option.map_eq_some_iff] at h
      rcases h with ⟨first, hfirst, rfl⟩ | ⟨hnone, first, hfirst, rfl⟩
      · rcases hpath.of_app hl with ⟨inner, rfl, hinner⟩ | ⟨inner, rfl, -⟩
        · exact (hf hinner hfirst).imp (congrArg _) .cons
        · exact .inr (.rel ⟨rfl, rfl⟩)
      · have hnormal := redexPlace?_eq_none_iff.mp hnone
        rcases hpath.of_app hl with ⟨inner, -, hinner⟩ | ⟨inner, rfl, hinner⟩
        · simp [hinner.hasRedex] at hnormal
        · exact (ha hinner hfirst).imp (congrArg _) .cons

namespace Contraction

variable {r : t.Redex}

theorem of_grafted (h : Grafted head.id (fun c d u => Copied [] c d arg u) c d b u)
    (hold : ∀ x ∈ b.heads, x.id < c) :
    Contraction (.whole n m head b arg) c d u where
  place_eq := by simp [redexPlace?, isLam, Redex.whole]
  supply_eq := h.supply_eq
  interleaved := by simpa [Redex.whole] using h.interleaved hold (Nat.le_refl c)
  exists_copy _ _ hi := h.exists_copy hi

theorem inBody (h : Contraction r c d u) (hhead : head.id < c) :
    Contraction (r.inBody n head) c d (lam m head u) where
  place_eq := by simp [redexPlace?, h.place_eq, Redex.inBody]
  supply_eq := h.supply_eq
  interleaved := h.interleaved.prepend (List.forall_mem_singleton.mpr hhead)
  exists_copy := h.exists_copy

theorem inFn (h : Contraction r c d u) (hl : t.isLam = false) (hold : ∀ x ∈ a.heads, x.id < c) :
    Contraction (r.inFn n a) c d (app m u a) where
  place_eq := by simp [redexPlace?, hl, h.place_eq, Redex.inFn]
  supply_eq := h.supply_eq
  interleaved := by simpa [Redex.inFn, heads] using h.interleaved.extend hold
  exists_copy := h.exists_copy

theorem inArg (h : Contraction r c d u) (hl : f.isLam = false) (hr : f.hasRedex = false)
    (hold : ∀ x ∈ f.heads, x.id < c) : Contraction (r.inArg n f) c d (app m f u) where
  place_eq := by simp [redexPlace?, hl, redexPlace?_eq_none_iff.mpr hr, h.place_eq, Redex.inArg]
  supply_eq := h.supply_eq
  interleaved := by simpa [Redex.inArg, heads] using h.interleaved.prepend hold
  exists_copy := h.exists_copy

/-- Neither the head nor a lambda of the argument is left. -/
theorem notMem_heads (h : Contraction r c d u) (ht : t.WellScoped c) :
    ∀ x ∈ r.head :: r.arg.heads, x.id ∉ u.heads.map Variable.id := by
  intro x hx hmem
  obtain ⟨y, hy, hyx⟩ := List.mem_map.mp hmem
  have hbelow := ht.heads_below x (r.heads_perm.mem_iff.mpr (List.mem_append_left _ hx))
  have hold : y ∈ r.before ++ (r.body.heads ++ r.after) := by
    rw [← h.interleaved.old_eq, List.mem_filter]
    exact ⟨hy, by simpa [hyx] using hbelow⟩
  have hdistinct := (r.heads_perm.map Variable.id).nodup_iff.mp ht.heads_distinct
  rw [List.map_append] at hdistinct
  have hapart := (List.nodup_append.mp hdistinct).2.2
  exact hapart _ (List.mem_map_of_mem hx) _ (List.mem_map_of_mem hold) hyx.symm

end Contraction

/-- A step contracts the leftmost outermost redex. -/
theorem Reduced.exists_contraction (h : Reduced c d t u) (hold : ∀ x ∈ t.heads, x.id < c) :
    ∃ r : t.Redex, Contraction r c d u := by
  induction h with
  | contract hg =>
    obtain ⟨-, hbody⟩ := List.forall_mem_cons.mp (List.forall_mem_append.mp hold).1
    exact ⟨_, .of_grafted hg hbody⟩
  | lam _ ih =>
    obtain ⟨hhead, hbody⟩ := List.forall_mem_cons.mp hold
    obtain ⟨r, hc⟩ := ih hbody
    exact ⟨_, hc.inBody hhead⟩
  | fn hl _ ih =>
    obtain ⟨hf, ha⟩ := List.forall_mem_append.mp hold
    obtain ⟨r, hc⟩ := ih hf
    exact ⟨_, hc.inFn hl ha⟩
  | arg hl hr _ ih =>
    obtain ⟨hf, ha⟩ := List.forall_mem_append.mp hold
    obtain ⟨r, hc⟩ := ih ha
    exact ⟨_, hc.inArg hl hr hf⟩

/-- A part of a well-scoped term is well scoped inside the lambdas around it. -/
theorem ScopedIn.of_at? (h : t.ScopedIn scope bound) (hu : t.at? path = some u) :
    ∃ scope', u.ScopedIn scope' bound := by
  induction path generalizing t scope with
  | nil =>
    cases hu
    exact ⟨scope, h⟩
  | cons branch path ih =>
    cases branch <;> cases t <;> simp only [at?, reduceCtorEq] at hu
    · exact ih h.body hu
    · exact ih h.fn hu
    · exact ih h.arg hu

/-- A step on a well-scoped term with a redex contracts the first one. It draws one identity for
each lambda of the argument and each occurrence that the argument is put in for. The lambdas outside
of the redex and in the body stay as they are, in their order, and no identity is there twice. Of
the head and of the lambdas of the argument none is left: in the place of each occurrence, from left
to right, stands a copy of the argument with the next identities. -/
theorem step_accounts (ht : t.WellScoped s.id) (hr : t.hasRedex = true) :
    ∃ r : t.Redex, r.IsFirst ∧
      let q := (r.body.vars.map Variable.id).count r.head.id
      let l := r.arg.heads.length
      let u := (t.step s).1
      (t.step s).2.id = s.id + q * l ∧
      u.heads.filter (·.id < s.id) = r.before ++ (r.body.heads ++ r.after) ∧
      (u.heads.filter (s.id ≤ ·.id)).map Variable.id = List.range' s.id (q * l) ∧
      (u.heads.map Variable.id).Nodup ∧
      (∀ x ∈ r.head :: r.arg.heads, x.id ∉ u.heads.map Variable.id) ∧
      ∃ hits : List (List Branch), hits.length = q ∧ hits.Pairwise Precedes ∧
        (∀ path, path ∈ hits ↔ ∃ n v, r.body.at? path = some (var n v) ∧ v.id = r.head.id) ∧
        ∀ i hit, hits[i]? = some hit → ∃ copy, u.at? (r.place ++ hit) = some copy ∧
          Copied [] (s.id + i * l) (s.id + (i + 1) * l) r.arg copy := by
  have hscoped := (wellScoped_iff s.id t).mp ht
  obtain ⟨hnone, -⟩ | ⟨-, hred⟩ := step_spec t s
  · simp [hnone] at hr
  have hu := hred.scopedIn hscoped
  obtain ⟨r, hc⟩ := hred.exists_contraction ht.heads_below
  obtain ⟨n, m, hat⟩ := r.at_place
  obtain ⟨scope, hpart⟩ := hscoped.of_at? hat
  have hbody : r.body.ScopedIn (r.head :: scope) s.id := hpart.fn.body
  have hid : r.head.id ∈ (r.head :: scope).map Variable.id := List.mem_cons_self
  have hq := hbody.length_hits hid
  refine ⟨r, fun path hpath => hpath.eq_or_precedes hc.place_eq, ?_⟩
  rw [← hq]
  exact ⟨hc.supply_eq, hc.interleaved.old_eq, hc.interleaved.drawn_eq, hu.distinct,
    hc.notMem_heads ht, r.body.hits r.head.id, rfl, hits_sorted _ _,
    fun path => mem_hits_iff.trans (hbody.isHit_iff hid), hc.exists_copy⟩

/-- Below a lambda `w` the function `x` uses its argument in two places, with a lambda `y` in
between. There is one more lambda behind the redex. -/
def usedTwice : Term :=
  let w : Variable := ⟨"w", true, 0⟩
  let x : Variable := ⟨"x", true, 1⟩
  let z : Variable := ⟨"z", true, 3⟩
  lam 0 w (app 1
    (app 2 (lam 3 x (app 4 (var 5 x) (lam 6 ⟨"y", true, 2⟩ (var 7 x)))) (lam 8 z (var 9 z)))
    (lam 10 ⟨"v", true, 4⟩ (var 11 w)))

/-- Two copies of one lambda each are put in for `x`, the second one behind `y`. -/
theorem step_accounts_usedTwice :
    usedTwice.WellScoped 5 ∧ usedTwice.hasRedex = true ∧
      (∃ r : usedTwice.Redex, r.IsFirst ∧ r.place = [.body, .fn] ∧
        (usedTwice.step ⟨5, 12⟩).2.id =
          5 + (r.body.vars.map Variable.id).count r.head.id * r.arg.heads.length) ∧
      (usedTwice.step ⟨5, 12⟩).2.id = 7 ∧
      (usedTwice.step ⟨5, 12⟩).1.heads.map Variable.id = [0, 5, 2, 6, 4] := by
  have ht : usedTwice.WellScoped ({ id := 5, node := 12 } : Supply).id := by
    constructor <;> decide
  obtain ⟨r, hfirst, hsupply, -⟩ := step_accounts ht (by decide)
  refine ⟨ht, by decide, ⟨r, hfirst, ?_, hsupply⟩, by decide, by decide⟩
  obtain ⟨n, m, hat⟩ := r.at_place
  rcases hfirst [.body, .fn] ⟨_, _, _, _, _, rfl⟩ with heq | hbefore
  · exact heq.symm
  · -- Before that place come the two nodes around it, and neither is a redex.
    cases hplace : r.place with
    | nil =>
      rw [hplace] at hat
      cases hat
    | cons branch rest =>
      rw [hplace] at hat hbefore
      cases hbefore with
      | rel hne => cases hne.2
      | cons hrest =>
        cases hrest with
        | nil => cases hat
        | rel hne => cases hne.2
        | cons hnone => cases hnone

end Term

end LambdaCalc
