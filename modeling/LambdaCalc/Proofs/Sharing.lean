import LambdaCalc.Proofs.Budget

namespace LambdaCalc

namespace Term

/-- The parts of a term, and first of all the term itself. -/
def parts : Term → List Term
  | var n v => [var n v]
  | lam n head b => lam n head b :: b.parts
  | app n f a => app n f a :: (f.parts ++ a.parts)

/-- The nodes that there are: the parts of one are among them, no two have the same label, and the
labels from `bound` on are still to be given. -/
structure Heap (nodes : List Term) (bound : Nat) : Prop where
  parts_subset : ∀ t ∈ nodes, t.parts ⊆ nodes
  node_lt : ∀ t ∈ nodes, t.node < bound
  eq_of_node : ∀ t ∈ nodes, ∀ u ∈ nodes, t.node = u.node → t = u

/-- The labels of a term tell its nodes apart, and `bound` is above them. Any number of places may
hold one node. -/
structure Labelled (bound : Nat) (t : Term) : Prop where
  node_lt : ∀ p ∈ t.parts, p.node < bound
  eq_of_node : ∀ p ∈ t.parts, ∀ q ∈ t.parts, p.node = q.node → p = q

/-- Work has added nodes and left those that there were. -/
structure Grown (nodes : List Term) (s : Supply) (nodes' : List Term) (s' : Supply) : Prop where
  heap : Heap nodes' s'.node
  subset : nodes ⊆ nodes'
  le : s.node ≤ s'.node

variable {t u : Term} {nodes nodes' nodes'' : List Term} {bound n : Nat} {s s' s'' : Supply}

theorem mem_parts_self (t : Term) : t ∈ t.parts := by
  cases t <;> exact List.mem_cons_self

theorem parts_subset_of_mem (h : u ∈ t.parts) : u.parts ⊆ t.parts := by
  induction t with
  | var n v =>
    rw [List.mem_singleton.mp h]
    exact List.Subset.refl _
  | lam n head b ih =>
    rcases List.mem_cons.mp h with rfl | hb
    · exact List.Subset.refl _
    · exact List.Subset.trans (ih hb) (List.subset_cons_self _ _)
  | app n f a hf ha =>
    rcases List.mem_cons.mp h with rfl | h
    · exact List.Subset.refl _
    · refine List.Subset.trans ?_ (List.subset_cons_self _ _)
      rcases List.mem_append.mp h with h | h
      · exact List.Subset.trans (hf h) (List.subset_append_left _ _)
      · exact List.Subset.trans (ha h) (List.subset_append_right _ _)

/-- A redex is an application among the parts whose function is a lambda. -/
theorem hasRedex_iff_parts : t.hasRedex = true ↔
    ∃ n m head b arg, app n (lam m head b) arg ∈ t.parts := by
  induction t with
  | var n v => simp [hasRedex, parts]
  | lam n head b ih => simp [hasRedex, parts, ih]
  | app n f a hf ha =>
    have hlam : f.isLam = true ↔ ∃ m head b, lam m head b = f := by
      cases f <;> simp [isLam]
    simp only [hasRedex, Bool.or_eq_true, hf, ha, hlam, parts, List.mem_cons, List.mem_append]
    constructor
    · rintro ((⟨m, head, b, rfl⟩ | ⟨n', m, head, b, arg, h⟩) | ⟨n', m, head, b, arg, h⟩)
      · exact ⟨n, m, head, b, a, .inl rfl⟩
      · exact ⟨n', m, head, b, arg, .inr (.inl h)⟩
      · exact ⟨n', m, head, b, arg, .inr (.inr h)⟩
    · rintro ⟨n', m, head, b, arg, h | h | h⟩
      · cases h
        exact .inl (.inl ⟨m, head, b, rfl⟩)
      · exact .inl (.inr ⟨n', m, head, b, arg, h⟩)
      · exact .inr ⟨n', m, head, b, arg, h⟩

theorem Labelled.heap (h : t.Labelled bound) : Heap t.parts bound :=
  ⟨fun _ hp => parts_subset_of_mem hp, h.node_lt, h.eq_of_node⟩

namespace Heap

theorem labelled (h : Heap nodes bound) (ht : t ∈ nodes) : t.Labelled bound where
  node_lt p hp := h.node_lt p (h.parts_subset t ht hp)
  eq_of_node p hp q hq := h.eq_of_node p (h.parts_subset t ht hp) q (h.parts_subset t ht hq)

theorem body (h : Heap nodes bound) {head : Variable} {b : Term} (ht : lam n head b ∈ nodes) :
    b ∈ nodes :=
  h.parts_subset _ ht (List.mem_cons_of_mem _ b.mem_parts_self)

theorem fn (h : Heap nodes bound) {f a : Term} (ht : app n f a ∈ nodes) : f ∈ nodes :=
  h.parts_subset _ ht (List.mem_cons_of_mem _ (List.mem_append_left _ f.mem_parts_self))

theorem arg (h : Heap nodes bound) {f a : Term} (ht : app n f a ∈ nodes) : a ∈ nodes :=
  h.parts_subset _ ht (List.mem_cons_of_mem _ (List.mem_append_right _ a.mem_parts_self))

/-- Two nodes of a heap are the same exactly if they are equal. -/
theorem isSame_eq_false (h : Heap nodes bound) (ht : t ∈ nodes) (hu : u ∈ nodes) (hne : t ≠ u) :
    t.isSame u = false := by
  simpa [isSame] using fun hnode => hne (h.eq_of_node t ht u hu hnode)

/-- A node with the next label, all of whose other parts are there, can be added. -/
theorem cons (h : Heap nodes bound) (hnode : t.node = bound)
    (hparts : ∀ p ∈ t.parts, p = t ∨ p ∈ nodes) : Heap (t :: nodes) (bound + 1) where
  parts_subset u hu p hp := by
    rcases List.mem_cons.mp hu with rfl | hu
    · exact List.mem_cons.mpr (hparts p hp)
    · exact List.mem_cons_of_mem _ (h.parts_subset u hu hp)
  node_lt u hu := by
    rcases List.mem_cons.mp hu with rfl | hu
    · exact hnode ▸ Nat.lt_succ_self _
    · exact (h.node_lt u hu).trans (Nat.lt_succ_self _)
  eq_of_node u hu v hv he := by
    rcases List.mem_cons.mp hu with hut | hu' <;> rcases List.mem_cons.mp hv with hvt | hv'
    · exact hut.trans hvt.symm
    · exact absurd (he.symm.trans (hut ▸ hnode)) (h.node_lt v hv').ne
    · exact absurd (he.trans (hvt ▸ hnode)) (h.node_lt u hu').ne
    · exact h.eq_of_node u hu' v hv' he

end Heap

namespace Grown

theorem refl (h : Heap nodes s.node) : Grown nodes s nodes s := ⟨h, List.Subset.refl _, le_rfl⟩

theorem trans (h : Grown nodes s nodes' s') (h' : Grown nodes' s' nodes'' s'') :
    Grown nodes s nodes'' s'' :=
  ⟨h'.heap, List.Subset.trans h.subset h'.subset, h.le.trans h'.le⟩

theorem freshId (h : Heap nodes s.node) : Grown nodes s nodes { s with id := s.id + 1 } :=
  ⟨h, List.Subset.refl _, le_rfl⟩

end Grown

/-- What work answers, if it answers anything, is a node of the heap that it leaves, and a good
one. -/
def Answers (nodes : List Term) (s : Supply) (answer : Option Term) (s' : Supply)
    (good : Term → Prop) : Prop :=
  ∃ nodes', Grown nodes s nodes' s' ∧ ∀ t ∈ answer, t ∈ nodes' ∧ good t

/-- The label of a new node was not given before. -/
abbrev New (s : Supply) (t : Term) : Prop := s.node ≤ t.node

theorem New.ne (h : Heap nodes s.node) (ht : t ∈ nodes) (hu : New s u) : u ≠ t := fun he =>
  absurd (h.node_lt t ht) (not_lt.mpr (he ▸ hu))

section Making

variable {f a b : Term} {f' a' b' : Option Term}

theorem answers_none (h : Heap nodes s.node) (good : Term → Prop) :
    Answers nodes s none s good :=
  ⟨nodes, .refl h, fun _ ht => nomatch ht⟩

theorem answers_made (h : Heap nodes s.node) (hnode : t.node = s.node)
    (hparts : ∀ p ∈ t.parts, p = t ∨ p ∈ nodes) :
    Answers nodes s (some t) { s with node := s.node + 1 } (New s) := by
  refine ⟨t :: nodes, ⟨h.cons hnode hparts, List.subset_cons_self _ _, Nat.le_succ _⟩, ?_⟩
  rintro u ⟨⟩
  exact ⟨List.mem_cons_self, hnode.ge⟩

theorem newVar_answers (h : Heap nodes s.node) (v : Variable) :
    Answers nodes s (some (newVar v s).1) (newVar v s).2 (New s) :=
  answers_made h rfl fun _ hp => .inl (List.mem_singleton.mp hp)

theorem newLam_answers (h : Heap nodes s.node) (head : Variable) (hb : b ∈ nodes) :
    Answers nodes s (some (newLam head b s).1) (newLam head b s).2 (New s) :=
  answers_made h rfl fun _ hp =>
    (List.mem_cons.mp hp).imp_right fun hp => h.parts_subset b hb hp

theorem newApp_answers (h : Heap nodes s.node) (hf : f ∈ nodes) (ha : a ∈ nodes) :
    Answers nodes s (some (newApp f a s).1) (newApp f a s).2 (New s) :=
  answers_made h rfl fun _ hp => (List.mem_cons.mp hp).imp_right fun hp =>
    (List.mem_append.mp hp).elim (fun hp => h.parts_subset f hf hp)
      fun hp => h.parts_subset a ha hp

theorem rebuildLam_answers (h : Heap nodes s.node) (head : Variable)
    (hb : ∀ t ∈ b', t ∈ nodes) :
    Answers nodes s (rebuildLam head b' s).1 (rebuildLam head b' s).2 (New s) := by
  cases b' with
  | none => exact answers_none h _
  | some b => exact newLam_answers h head (hb b rfl)

theorem rebuildApp_answers (h : Heap nodes s.node) (hf : f ∈ nodes) (ha : a ∈ nodes)
    (hf' : ∀ t ∈ f', t ∈ nodes) (ha' : ∀ t ∈ a', t ∈ nodes) :
    Answers nodes s (rebuildApp f a f' a' s).1 (rebuildApp f a f' a' s).2 (New s) := by
  cases f' <;> cases a'
  · exact answers_none h _
  · exact newApp_answers h hf (ha' _ rfl)
  · exact newApp_answers h (hf' _ rfl) ha
  · exact newApp_answers h (hf' _ rfl) (ha' _ rfl)

theorem Answers.after {answer : Option Term} (hg : Grown nodes s nodes' s')
    (h : Answers nodes' s' answer s'' (New s')) : Answers nodes s answer s'' (New s) := by
  obtain ⟨nodes'', hg', hmem⟩ := h
  exact ⟨nodes'', hg.trans hg', fun t ht => ⟨(hmem t ht).1, hg.le.trans (hmem t ht).2⟩⟩

theorem Answers.imp {answer : Option Term} {good good' : Term → Prop}
    (h : Answers nodes s answer s' good) (hgood : ∀ t, good t → good' t) :
    Answers nodes s answer s' good' := by
  obtain ⟨nodes', hg, hmem⟩ := h
  exact ⟨nodes', hg, fun t ht => ⟨(hmem t ht).1, hgood t (hmem t ht).2⟩⟩

/-- The old node stands for no answer. -/
theorem Answers.getD {answer : Option Term} {good : Term → Prop} (ht : t ∈ nodes)
    (h : Answers nodes s answer s' good) :
    Answers nodes s (some (answer.getD t)) s' fun u => u = t ∨ good u := by
  obtain ⟨nodes', hg, hmem⟩ := h
  refine ⟨nodes', hg, ?_⟩
  rintro u ⟨⟩
  cases answer with
  | none => exact ⟨hg.subset ht, .inl rfl⟩
  | some u => exact ⟨(hmem u rfl).1, .inr (hmem u rfl).2⟩

/-- An answer that is not the old node does not have its label either. -/
theorem Answers.isSame_eq_false {answer : Option Term} {good : Term → Prop}
    (h : Answers nodes s answer s' good) (ht : t ∈ nodes) (hgood : ∀ u, good u → u ≠ t) :
    ∀ u ∈ answer, u.isSame t = false := by
  obtain ⟨nodes', hg, hmem⟩ := h
  exact fun u hu =>
    hg.heap.isSame_eq_false (hmem u hu).1 (hg.subset ht) (hgood u (hmem u hu).2)

/-- To hand back the old node is to answer nothing. -/
theorem Answers.isSame_getD_iff {answer : Option Term} {good : Term → Prop}
    (h : Answers nodes s answer s' good) (ht : t ∈ nodes) (hgood : ∀ u, good u → u ≠ t) :
    (answer.getD t).isSame t = true ↔ answer = none := by
  cases answer with
  | none => simp [isSame_refl]
  | some u => simp [h.isSame_eq_false ht hgood u rfl]

end Making

/-- A copy that is not the old node is a new one. -/
theorem refresh?_answers (renewed : List (Nat × Variable)) (h : Heap nodes s.node)
    (ht : t ∈ nodes) :
    Answers nodes s (refresh? renewed t s).1 (refresh? renewed t s).2 (New s) := by
  induction t generalizing renewed nodes s with
  | var n v =>
    simp only [refresh?]
    cases renewed.lookup v.id with
    | none => exact answers_none h _
    | some head => exact newVar_answers h head
  | lam n head b ih =>
    have hb := h.body ht
    obtain ⟨nodes₁, hg, hmem⟩ :=
      ih ((head.id, ⟨head.name, true, s.id⟩) :: renewed) (s := { s with id := s.id + 1 }) h hb
    refine (newLam_answers hg.heap ⟨head.name, true, s.id⟩ ?_).after
      ((Grown.freshId h).trans hg)
    cases hr : (refresh? ((head.id, ⟨head.name, true, s.id⟩) :: renewed) b
        { s with id := s.id + 1 }).1 with
    | none => exact hg.subset hb
    | some b' => exact (hmem b' hr).1
  | app n f a hf ha =>
    obtain ⟨nodes₁, hg₁, hmem₁⟩ := hf renewed h (h.fn ht)
    obtain ⟨nodes₂, hg₂, hmem₂⟩ := ha renewed hg₁.heap (hg₁.subset (h.arg ht))
    have hg := hg₁.trans hg₂
    exact (rebuildApp_answers hg.heap (hg.subset (h.fn ht)) (hg.subset (h.arg ht))
      (fun t ht => hg₂.subset (hmem₁ t ht).1) fun t ht => (hmem₂ t ht).1).after hg

theorem refresh_answers (h : Heap nodes s.node) (ht : t ∈ nodes) :
    Answers nodes s (some (t.refresh s).1) (t.refresh s).2 fun u => u = t ∨ New s u :=
  (refresh?_answers [] h ht).getD ht

/-- An occurrence gives way to `arg` or to a new node, and is told apart from it. -/
theorem substitute?_answers (id : Nat) {copy : Fresh Term} {arg : Term}
    (hcopy : ∀ {nodes : List Term} {s : Supply}, Heap nodes s.node → arg ∈ nodes →
      Answers nodes s (some (copy s).1) (copy s).2 fun u => u = arg ∨ New s u)
    (h : Heap nodes s.node) (ht : t ∈ nodes) (harg : arg ∈ nodes) :
    Answers nodes s (t.substitute? id copy s).1 (t.substitute? id copy s).2
      fun u => u ≠ t ∧ (u = arg ∨ New s u) := by
  induction t generalizing nodes s with
  | var n v =>
    simp only [substitute?]
    split
    · obtain ⟨nodes₁, hg, hmem⟩ := hcopy h harg
      refine ⟨nodes₁, hg, ?_⟩
      change ∀ u ∈ (if (copy s).1 = var n v then none else some (copy s).1), _
      split
      · rintro u ⟨⟩
      · next hne =>
        rintro u ⟨⟩
        exact ⟨(hmem _ rfl).1, hne, (hmem _ rfl).2⟩
    · exact answers_none h _
  | lam n head b ih =>
    simp only [substitute?]
    split
    · exact answers_none h _
    · obtain ⟨nodes₁, hg, hmem⟩ := ih h (h.body ht) harg
      exact ((rebuildLam_answers hg.heap head fun u hu => (hmem u hu).1).after hg).imp
        fun u hu => ⟨hu.ne h ht, .inr hu⟩
  | app n f a hf ha =>
    obtain ⟨nodes₁, hg₁, hmem₁⟩ := hf h (h.fn ht) harg
    obtain ⟨nodes₂, hg₂, hmem₂⟩ := ha hg₁.heap (hg₁.subset (h.arg ht)) (hg₁.subset harg)
    have hg := hg₁.trans hg₂
    exact ((rebuildApp_answers hg.heap (hg.subset (h.fn ht)) (hg.subset (h.arg ht))
      (fun t ht => hg₂.subset (hmem₁ t ht).1) fun t ht => (hmem₂ t ht).1).after hg).imp
        fun u hu => ⟨hu.ne h ht, .inr hu⟩

/-- A contraction leads to a new node or to one inside the redex. The redex itself is none of its
own parts. -/
theorem contract_answers {m : Nat} {head : Variable} {b arg : Term} (h : Heap nodes s.node)
    (ht : app n (lam m head b) arg ∈ nodes) :
    Answers nodes s (some (contract head b arg s).1) (contract head b arg s).2
      fun u => u ≠ app n (lam m head b) arg := by
  have hb := h.body (h.fn ht)
  refine ((substitute?_answers head.id refresh_answers h hb (h.arg ht)).getD hb).imp ?_
  rintro u (rfl | ⟨-, rfl | hu⟩) he
  · have hsize := congrArg weight he
    simp only [weight] at hsize
    omega
  · have hsize := congrArg weight he
    simp only [weight] at hsize
    omega
  · exact hu.ne h ht he

/-- What a step answers, if anything, is another node than it was given. -/
theorem step?_answers (h : Heap nodes s.node) (ht : t ∈ nodes) :
    Answers nodes s (t.step? s).1 (t.step? s).2 fun u => u ≠ t := by
  induction t generalizing nodes s with
  | var n v => exact answers_none h _
  | lam n head b ih =>
    obtain ⟨nodes₁, hg, hmem⟩ := ih h (h.body ht)
    exact ((rebuildLam_answers hg.heap head fun u hu => (hmem u hu).1).after hg).imp
      fun u hu => hu.ne h ht
  | app n f a hf ha =>
    cases hl : f.isLam with
    | true =>
      cases f with
      | var _ _ => simp [isLam] at hl
      | app _ _ _ => simp [isLam] at hl
      | lam m head b => exact contract_answers h ht
    | false =>
      rw [step?_app n f a s hl]
      obtain ⟨nodes₁, hg₁, hmem₁⟩ := hf h (h.fn ht)
      cases hs : (f.step? s).1 with
      | some f' =>
        exact ((newApp_answers hg₁.heap (hmem₁ f' hs).1 (hg₁.subset (h.arg ht))).after hg₁).imp
          fun u hu => hu.ne h ht
      | none =>
        obtain ⟨nodes₂, hg₂, hmem₂⟩ := ha hg₁.heap (hg₁.subset (h.arg ht))
        have hg := hg₁.trans hg₂
        exact ((rebuildApp_answers hg.heap (hg.subset (h.fn ht)) (hg.subset (h.arg ht))
          (fun _ hu => absurd hu (Option.not_mem_none _)) fun t ht => (hmem₂ t ht).1).after hg).imp
            fun u hu => hu.ne h ht

/-- A step leaves labels that tell the nodes apart. -/
theorem Labelled.step (h : t.Labelled s.node) : (t.step s).1.Labelled (t.step s).2.node := by
  obtain ⟨nodes', hg, hmem⟩ := (step?_answers h.heap t.mem_parts_self).getD t.mem_parts_self
  exact hg.heap.labelled (hmem _ rfl).1

/-- An application whose parts were worked on: the old node if these are the old nodes. -/
def keepApp (n : Nat) (fn arg fn' arg' : Term) : Fresh Term :=
  if fn'.isSame fn && arg'.isSame arg then return app n fn arg else newApp fn' arg'

/-- A lambda whose body was worked on: the old node if that is the old one. -/
def keepLam (n : Nat) (head : Variable) (body body' : Term) : Fresh Term :=
  if body'.isSame body then return lam n head body else newLam head body'

def refreshByNode (heads : List (Nat × Variable)) : Term → Fresh Term
  | var n v =>
    match heads.lookup v.id with
    | some head => newVar head
    | none => return var n v
  | lam _ head body => do
    let fresh ← Variable.newBound head.name
    newLam fresh (← refreshByNode ((head.id, fresh) :: heads) body)
  | app n fn arg => do
    let fn' ← refreshByNode heads fn
    let arg' ← refreshByNode heads arg
    keepApp n fn arg fn' arg'

def substituteByNode (id : Nat) (copy : Fresh Term) : Term → Fresh Term
  | var n v => if v.bound && v.id == id then copy else return var n v
  | lam n head body => do
    if head.id = id then return lam n head body
    else keepLam n head body (← substituteByNode id copy body)
  | app n fn arg => do
    let fn' ← substituteByNode id copy fn
    let arg' ← substituteByNode id copy arg
    keepApp n fn arg fn' arg'

/-- One step of reduction, or the node itself for a term without a redex. -/
def stepByNode : Term → Fresh Term
  | var n v => return var n v
  | lam n head body => do keepLam n head body (← stepByNode body)
  | app _ (lam _ head body) arg => body.substituteByNode head.id (arg.refreshByNode [])
  | app n fn arg => do
    let fn' ← stepByNode fn
    if !fn'.isSame fn then newApp fn' arg
    else keepApp n fn arg fn (← stepByNode arg)

/-- Answering nothing and answering the old node come to the same. -/
theorem keepLam_eq (n : Nat) (head : Variable) (b : Term) (b' : Option Term) (s : Supply)
    (hb : ∀ t ∈ b', t.isSame b = false) :
    keepLam n head b (b'.getD b) s =
      ((rebuildLam head b' s).1.getD (lam n head b), (rebuildLam head b' s).2) := by
  cases b' with
  | none =>
    simp only [keepLam, Option.getD_none, isSame_refl, if_true]
    rfl
  | some b' =>
    simp only [keepLam, Option.getD_some, hb b' rfl, Bool.false_eq_true, if_false]
    rfl

theorem keepApp_eq (n : Nat) (f a : Term) (f' a' : Option Term) (s : Supply)
    (hf : ∀ t ∈ f', t.isSame f = false) (ha : ∀ t ∈ a', t.isSame a = false) :
    keepApp n f a (f'.getD f) (a'.getD a) s =
      ((rebuildApp f a f' a' s).1.getD (app n f a), (rebuildApp f a f' a' s).2) := by
  have hsame {t : Term} {t' : Option Term} (h : ∀ u ∈ t', u.isSame t = false) :
      (t'.getD t).isSame t = t'.isNone := by
    cases t' with
    | none => exact isSame_refl t
    | some u => exact h u rfl
  rw [keepApp, hsame hf, hsame ha]
  cases f' <;> cases a' <;> rfl

theorem refreshByNode_eq (renewed : List (Nat × Variable)) (h : Heap nodes s.node)
    (ht : t ∈ nodes) :
    refreshByNode renewed t s =
      ((refresh? renewed t s).1.getD t, (refresh? renewed t s).2) := by
  induction t generalizing renewed nodes s with
  | var n v =>
    simp only [refreshByNode, refresh?]
    cases renewed.lookup v.id <;> rfl
  | lam n head b ih =>
    have hb := ih ((head.id, ⟨head.name, true, s.id⟩) :: renewed)
      (s := { s with id := s.id + 1 }) h (h.body ht)
    change newLam _ (refreshByNode _ b { s with id := s.id + 1 }).1
      (refreshByNode _ b { s with id := s.id + 1 }).2 = _
    rw [hb]
    rfl
  | app n f a hf ha =>
    have hfn := refresh?_answers renewed h (h.fn ht)
    have hfne := hfn.isSame_eq_false (h.fn ht) fun u hu => hu.ne h (h.fn ht)
    obtain ⟨nodes₁, hg, -⟩ := hfn
    have ham := hg.subset (h.arg ht)
    have harg := refresh?_answers renewed hg.heap ham
    change keepApp n f a (refreshByNode renewed f s).1
      (refreshByNode renewed a (refreshByNode renewed f s).2).1
      (refreshByNode renewed a (refreshByNode renewed f s).2).2 = _
    rw [hf renewed h (h.fn ht), ha renewed hg.heap ham,
      keepApp_eq _ _ _ _ _ _ hfne (harg.isSame_eq_false ham fun u hu => hu.ne hg.heap ham)]
    rfl

theorem substituteByNode_eq {id : Nat} {copy copy' : Fresh Term} {arg : Term}
    (hcopy : ∀ {nodes : List Term} {s : Supply}, Heap nodes s.node → arg ∈ nodes →
      Answers nodes s (some (copy s).1) (copy s).2 fun u => u = arg ∨ New s u)
    (hcopy' : ∀ {nodes : List Term} {s : Supply}, Heap nodes s.node → arg ∈ nodes →
      copy' s = copy s)
    (h : Heap nodes s.node) (ht : t ∈ nodes) (harg : arg ∈ nodes) :
    substituteByNode id copy' t s = t.substitute id copy s := by
  induction t generalizing nodes s with
  | var n v =>
    by_cases hv : v.bound = true ∧ v.id = id
    · rw [substitute_hit id n copy v s hv, ← hcopy' h harg]
      simp [substituteByNode, hv.1, hv.2]
    · have hb : (v.bound && v.id == id) = false := by simpa using hv
      simp only [substituteByNode, substitute, substitute?, hb]
      rfl
  | lam n head b ih =>
    by_cases hi : head.id = id
    · simp only [substituteByNode, substitute, substitute?, hi, if_true]
      rfl
    · have hbody := substitute?_answers id hcopy h (h.body ht) harg
      simp only [substituteByNode, substitute, substitute?, hi, if_false]
      change keepLam n head b (substituteByNode id copy' b s).1
        (substituteByNode id copy' b s).2 = _
      rw [ih h (h.body ht) harg]
      change keepLam n head b ((b.substitute? id copy s).1.getD b)
        (b.substitute? id copy s).2 = _
      rw [keepLam_eq _ _ _ _ _ (hbody.isSame_eq_false (h.body ht) fun u hu => hu.1)]
      rfl
  | app n f a hf ha =>
    have hfn := substitute?_answers id hcopy h (h.fn ht) harg
    have hfne := hfn.isSame_eq_false (h.fn ht) fun u hu => hu.1
    obtain ⟨nodes₁, hg, -⟩ := hfn
    have ham := hg.subset (h.arg ht)
    have hrest := substitute?_answers id hcopy hg.heap ham (hg.subset harg)
    change keepApp n f a (substituteByNode id copy' f s).1
      (substituteByNode id copy' a (substituteByNode id copy' f s).2).1
      (substituteByNode id copy' a (substituteByNode id copy' f s).2).2 = _
    rw [hf h (h.fn ht) harg]
    change keepApp n f a ((f.substitute? id copy s).1.getD f)
      (substituteByNode id copy' a (f.substitute? id copy s).2).1
      (substituteByNode id copy' a (f.substitute? id copy s).2).2 = _
    rw [ha hg.heap ham (hg.subset harg)]
    change keepApp n f a ((f.substitute? id copy s).1.getD f)
      ((a.substitute? id copy (f.substitute? id copy s).2).1.getD a)
      (a.substitute? id copy (f.substitute? id copy s).2).2 = _
    rw [keepApp_eq _ _ _ _ _ _ hfne (hrest.isSame_eq_false ham fun u hu => hu.1)]
    rfl

theorem stepByNode_app (n : Nat) (f a : Term) (s : Supply) (hf : f.isLam = false) :
    (app n f a).stepByNode s =
      if (f.stepByNode s).1.isSame f then
        keepApp n f a f (a.stepByNode (f.stepByNode s).2).1 (a.stepByNode (f.stepByNode s).2).2
      else newApp (f.stepByNode s).1 a (f.stepByNode s).2 := by
  have he : (app n f a).stepByNode s = (if !(f.stepByNode s).1.isSame f then
      newApp (f.stepByNode s).1 a else do keepApp n f a f (← a.stepByNode)) (f.stepByNode s).2 := by
    cases f with
    | var _ _ => rfl
    | lam _ _ _ => simp [isLam] at hf
    | app _ _ _ => rfl
  rw [he]
  cases (f.stepByNode s).1.isSame f <;> rfl

theorem stepByNode_eq (h : Heap nodes s.node) (ht : t ∈ nodes) :
    t.stepByNode s = t.step s := by
  induction t generalizing nodes s with
  | var n v => rfl
  | lam n head b ih =>
    have hbody := step?_answers h (h.body ht)
    change keepLam n head b (b.stepByNode s).1 (b.stepByNode s).2 = _
    rw [ih h (h.body ht)]
    change keepLam n head b ((b.step? s).1.getD b) (b.step? s).2 = _
    rw [keepLam_eq _ _ _ _ _ (hbody.isSame_eq_false (h.body ht) fun u hu => hu)]
    rfl
  | app n f a hf ha =>
    have hfn := step?_answers h (h.fn ht)
    have hfne := hfn.isSame_eq_false (h.fn ht) fun u hu => hu
    obtain ⟨nodes₁, hg, -⟩ := hfn
    have ham := hg.subset (h.arg ht)
    have harg := step?_answers hg.heap ham
    have hstep : (app n f a).step s =
      (((app n f a).step? s).1.getD (app n f a), ((app n f a).step? s).2) := rfl
    cases hl : f.isLam with
    | true =>
      cases f with
      | var _ _ => simp [isLam] at hl
      | app _ _ _ => simp [isLam] at hl
      | lam m head b =>
        exact substituteByNode_eq refresh_answers (refreshByNode_eq []) h (h.body (h.fn ht))
          (h.arg ht)
    | false =>
      rw [stepByNode_app n f a s hl, hstep, step?_app n f a s hl, hf h (h.fn ht)]
      change (if ((f.step? s).1.getD f).isSame f then
        keepApp n f a f (a.stepByNode (f.step? s).2).1 (a.stepByNode (f.step? s).2).2
        else newApp ((f.step? s).1.getD f) a (f.step? s).2) = _
      cases hs : (f.step? s).1 with
      | some f' =>
        simp only [Option.getD_some, hfne f' hs, Bool.false_eq_true, if_false]
        rfl
      | none =>
        simp only [Option.getD_none, isSame_refl, if_true]
        rw [ha hg.heap ham]
        exact keepApp_eq n f a none _ _ (fun _ hu => absurd hu (Option.not_mem_none _))
          (harg.isSame_eq_false ham fun u hu => hu)

end Term

namespace BetaReduction

open Term

/-- A reduction that stops when a step hands back its node. -/
def proceedByNode (b : BetaReduction) : Nat → Nat → Term → Attempt Term
  | 0, _, _ => throw .unfinished
  | rounds + 1, done, t => do
    let next ← t.stepByNode
    if next.isSame t then return t
    else if b.budget ≠ 0 ∧ done = b.budget then
      if b.steps = 0 then throw (.budgetExceeded b.budget) else return t
    else if b.steps ≠ 0 ∧ done + 1 = b.steps then return next
    else b.proceedByNode rounds (done + 1) next

theorem proceedByNode_succ (b : BetaReduction) (rounds done : Nat) (t : Term) (s : Supply) :
    b.proceedByNode (rounds + 1) done t s =
      if (t.stepByNode s).1.isSame t then .ok t (t.stepByNode s).2
      else if b.budget ≠ 0 ∧ done = b.budget then
        if b.steps = 0 then .error (.budgetExceeded b.budget) (t.stepByNode s).2
        else .ok t (t.stepByNode s).2
      else if b.steps ≠ 0 ∧ done + 1 = b.steps then
        .ok (t.stepByNode s).1 (t.stepByNode s).2
      else b.proceedByNode rounds (done + 1) (t.stepByNode s).1 (t.stepByNode s).2 := by
  have he : b.proceedByNode (rounds + 1) done t s = (
      if (t.stepByNode s).1.isSame t then return t
      else if b.budget ≠ 0 ∧ done = b.budget then
        if b.steps = 0 then throw (.budgetExceeded b.budget) else return t
      else if b.steps ≠ 0 ∧ done + 1 = b.steps then return (t.stepByNode s).1
      else b.proceedByNode rounds (done + 1) (t.stepByNode s).1 : Attempt Term)
        (t.stepByNode s).2 := rfl
  rw [he]
  repeat' split
  all_goals rfl

/-- Every round starts from a term whose labels tell its nodes apart. -/
theorem proceedByNode_eq (b : BetaReduction) (rounds done : Nat) {t : Term} {s : Supply}
    (ht : t.Labelled s.node) : b.proceedByNode rounds done t s = b.proceed rounds done t s := by
  induction rounds generalizing done t s with
  | zero => rfl
  | succ rounds ih =>
    have hne := (step?_answers ht.heap t.mem_parts_self).isSame_eq_false t.mem_parts_self
      fun u hu => hu
    have hstep : t.step s = ((t.step? s).1.getD t, (t.step? s).2) := rfl
    have hnext := ht.step
    rw [proceedByNode_succ, proceed_succ, stepByNode_eq ht.heap t.mem_parts_self]
    rw [hstep] at hnext ⊢
    cases hs : (t.step? s).1 with
    | none => simp only [Option.getD_none, isSame_refl, if_true]
    | some next =>
      rw [hs] at hnext
      have hrest : b.proceedByNode rounds (done + 1) next (t.step? s).2 =
          b.proceed rounds (done + 1) next (t.step? s).2 := ih (done + 1) hnext
      simp only [Option.getD_some, hne next hs, Bool.false_eq_true, if_false, hrest]

end BetaReduction

namespace Term

/-- A step hands back its node exactly if no part of the term is an application of a lambda, and
then it draws nothing. No redex is the node to which its contraction leads. Taking steps and
reducing as long as there is a redex is therefore the same as asking for nodes, before and after
every step. -/
theorem isSame_step_iff {t : Term} {s : Supply} (ht : t.Labelled s.node) :
    ((t.step s).1.isSame t = true ↔
        ¬∃ n m head body arg, app n (lam m head body) arg ∈ t.parts) ∧
      ((t.step s).1.isSame t = true → t.step s = (t, s)) ∧
      (∀ n m head body arg, app n (lam m head body) arg ∈ t.parts →
        (contract head body arg s).1.isSame (app n (lam m head body) arg) = false) ∧
      t.stepByNode s = t.step s ∧ (t.step s).1.Labelled (t.step s).2.node ∧
      ∀ (b : BetaReduction) (rounds done : Nat),
        b.proceedByNode rounds done t s = b.proceed rounds done t s := by
  have hmem := t.mem_parts_self
  have hiff : (t.step s).1.isSame t = true ↔ t.hasRedex = false := by
    cases hr : t.hasRedex with
    | false =>
      have hstep : t.step s = ((t.step? s).1.getD t, (t.step? s).2) := rfl
      rw [hstep, step?_of_normal hr]
      simp [isSame_refl]
    | true =>
      have hne := (step?_answers ht.heap hmem).isSame_eq_false hmem (fun u hu => hu) (t.step s).1
        (by rw [step?_of_hasRedex hr]; rfl)
      simp [hne]
  refine ⟨?_, ?_, ?_, stepByNode_eq ht.heap hmem, ht.step, fun b rounds done =>
    b.proceedByNode_eq rounds done ht⟩
  · rw [hiff, ← hasRedex_iff_parts, Bool.not_eq_true]
  · intro hsame
    have hstep : t.step s = ((t.step? s).1.getD t, (t.step? s).2) := rfl
    rw [hstep, step?_of_normal (hiff.mp hsame)]
    rfl
  · intro n m head body arg hredex
    exact (contract_answers ht.heap hredex).isSame_eq_false hredex (fun u hu => hu) _ rfl

/-- A term that applies a function to itself for ever. Both occurrences in each of its lambdas are
one node. -/
def sharedLoop : Term :=
  let x : Variable := ⟨"x", true, 0⟩
  let y : Variable := ⟨"x", true, 1⟩
  app 6 (lam 2 x (app 1 (var 0 x) (var 0 x))) (lam 5 y (app 4 (var 3 y) (var 3 y)))

/-- With the next identity `0` the contraction of `sharedLoop` is equal to it in everything but the
labels, and yet it is not taken for it. -/
theorem isSame_step_sharedLoop :
    sharedLoop.Labelled 7 ∧ (sharedLoop.step ⟨0, 7⟩).1.alike sharedLoop = true ∧
      (sharedLoop.step ⟨0, 7⟩).1.isSame sharedLoop = false := by
  have ht : sharedLoop.Labelled 7 := by constructor <;> decide
  have hsame := (isSame_step_iff (s := ⟨0, 7⟩) ht).1
  refine ⟨ht, by decide, ?_⟩
  rw [← Bool.not_eq_true, hsame, not_not]
  exact ⟨6, 2, ⟨"x", true, 0⟩, _, _, List.mem_cons_self⟩

end Term

end LambdaCalc
