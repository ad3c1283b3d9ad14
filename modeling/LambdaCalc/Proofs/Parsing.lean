import LambdaCalc.Proofs.Reading

namespace LambdaCalc

/-- A command that can be had from a program by a name, or as the last one. -/
def Program.Holds (p : Program) (c : Command) : Prop :=
  (∃ name, p.get? name = some c) ∨ p.last = some c

/-- All commands of the program hold well-formed terms, below the supply. -/
def Reader.Sound (r : Reader) : Prop :=
  ∀ c, r.program.Holds c → c.term.WellFormed r.supply.id

theorem Reader.Sound.of_keeps {r r' : Reader} (h : r.Sound) (hk : r.Keeps r') : r'.Sound := by
  intro c hc
  rw [hk.program] at hc
  exact (h c hc).mono hk.le

namespace Read

open Term

variable {r r' : Reader}

/-- The commands of the program were well formed already when the supply was at `old`. -/
structure Behind (old : Nat) (r : Reader) : Prop where
  commands : ∀ c, r.program.Holds c → c.term.WellFormed old
  le : old ≤ r.supply.id

theorem Behind.of_keeps {old : Nat} (h : Behind old r) (hk : r.Keeps r') : Behind old r' :=
  ⟨hk.program ▸ h.commands, Nat.le_trans h.le hk.le⟩

theorem Behind.of_ok {α : Type} {old : Nat} {work : Read α} {a : α} (h : Behind old r)
    (hf : Frames work) (hw : work r = .ok a r') : Behind old r' :=
  h.of_keeps (hf.keeps_of_ok hw)

/-- Some work reads tokens and draws nothing. -/
def OnlyReads {α : Type} (work : Read α) : Prop :=
  ∀ r a r', work r = .ok a r' → r'.supply = r.supply

theorem onlyReads_pure {α : Type} (a : α) : OnlyReads (pure a) := by
  intro r b r' h
  cases h
  rfl

theorem onlyReads_current : OnlyReads current := by
  intro r token r' h
  cases h
  rfl

theorem onlyReads_refuse {α : Type} (wanted : Expectation) :
    OnlyReads (refuse wanted : Read α) := by
  intro r a r' h
  cases h

theorem onlyReads_advance : OnlyReads advance := by
  intro r u r' h
  rw [advance] at h
  cases hn : r.source.next.1 with
  | ok token =>
    simp only [hn] at h
    cases h
    rfl
  | error e =>
    simp only [hn] at h
    cases h

theorem OnlyReads.bind {α β : Type} {work : Read α} {next : α → Read β} (hw : OnlyReads work)
    (hn : ∀ a, OnlyReads (next a)) : OnlyReads (work >>= next) := by
  intro r b r' h
  obtain ⟨a, r₁, h₁, h₂⟩ := bind_eq_ok h
  rw [hn a r₁ b r' h₂, hw r a r₁ h₁]

theorem onlyReads_expect (operator : Operator) (wanted : Expectation) :
    OnlyReads (expect operator wanted) := by
  refine onlyReads_current.bind fun token => ?_
  split
  · exact onlyReads_advance
  · exact onlyReads_refuse wanted

theorem onlyReads_identifier (wanted : Expectation) : OnlyReads (identifier wanted) := by
  refine onlyReads_current.bind fun token => ?_
  split
  · exact onlyReads_advance.bind fun _ => onlyReads_pure _
  · exact onlyReads_refuse wanted

theorem onlyReads_count (digits : String) : OnlyReads (count digits) := by
  rw [count]
  split
  · exact onlyReads_pure _
  · intro r n r' h
    cases h

/-- The terms that some work answers inside the lambdas of `scope` are put together meanwhile. -/
def Builds (old : Nat) (scope : List Variable) (work : Read Term) : Prop :=
  ∀ r t r', Behind old r → work r = .ok t r' → t.Built old scope r.supply.id r'.supply.id

section

variable {old : Nat} {scope : List Variable}

theorem builds_throw (e : Error) : Builds old scope (throw e) := by
  intro r t r' _ h
  cases h

theorem Builds.after {α : Type} {work : Read α} {next : α → Read Term} (hw : OnlyReads work)
    (hf : Frames work) (hn : ∀ a, Builds old scope (next a)) :
    Builds old scope (work >>= next) := by
  intro r t r' hb h
  obtain ⟨a, r₁, h₁, h₂⟩ := bind_eq_ok h
  rw [← hw r a r₁ h₁]
  exact hn a r₁ t r' (hb.of_ok hf h₁) h₂

theorem Builds.after_advance {next : Unit → Read Term} (hn : Builds old scope (next ())) :
    Builds old scope (advance >>= next) :=
  Builds.after onlyReads_advance frames_advance fun _ => hn

theorem builds_occurrence (hs : ∀ head ∈ scope, head.bound = true) (word : String) :
    Builds old scope (occurrence scope word) := by
  intro r t r' _ h
  rw [occurrence] at h
  cases hf : scope.find? (·.name == word) with
  | some head =>
    rw [hf] at h
    cases h
    have hm := List.mem_of_find?_eq_some hf
    exact .occurrence hm (hs head hm)
  | none =>
    rw [hf] at h
    obtain ⟨v, r₁, hv, h⟩ := bind_eq_ok h
    cases hv
    cases h
    exact .free word

theorem builds_numeral (digits : String) : Builds old scope (numeral digits) := by
  refine Builds.after (onlyReads_count digits) (frames_count digits) fun n => ?_
  split
  · exact builds_throw _
  · intro r t r' hb h
    rw [liftM_fresh] at h
    cases h
    obtain ⟨ht, hid⟩ := Term.numeral_built scope n r.supply hb.le
    exact hid ▸ ht

theorem builds_truth (value : Bool) : Builds old scope (liftM (truth value)) := by
  intro r t r' hb h
  cases h
  exact (truth_built value r.supply hb.le).1

/-- The outcome of a stored command has old free occurrences only, and it is copied. -/
theorem builds_expansion (name : String) : Builds old scope (expansion name) := by
  intro r t r' hb h
  obtain ⟨c, u, s, hc, he, rfl, rfl⟩ := expansion_eq_ok h
  have hold := hb.commands c (.inl ⟨name, hc⟩)
  obtain ⟨hu, hfree⟩ := Command.execute_ok he (hold.mono hb.le)
  have hle : r.supply.id ≤ s.id := by
    have hl := c.le_leaves_execute r.patience r.supply
    rwa [Attempt.leaves, he] at hl
  have hcopy := Built.copy scope (refresh_copied u s) hu.scopedIn.resolved
    (fun v hv hf => hold.scopedIn.free_below v (hfree v hv hf) hf) (Nat.le_trans hb.le hle)
  exact hcopy.of_le hle

/-- The head is drawn before its body is read. -/
theorem builds_lambda {body : Variable → Read Term} (word : String)
    (h : ∀ head, head.bound = true → Builds old (head :: scope) (body head)) :
    Builds old scope (do
      let head ← Variable.newBound word
      Term.newLam head (← body head)) := by
  intro r t r' hb hr
  obtain ⟨head, r₁, h₁, hr⟩ := bind_eq_ok hr
  obtain ⟨b, r₂, h₂, h₃⟩ := bind_eq_ok hr
  cases h₁
  cases h₃
  let s : Supply := { r.supply with id := r.supply.id + 1 }
  have hk : r.Keeps { r with supply := s } := .draw (Nat.le_succ r.supply.id)
  exact (h _ rfl _ b r₂ (hb.of_keeps hk) h₂).lam rfl rfl hb.le

theorem builds_brackets {fn arg : Read Term} (hf : Builds old scope fn) (hfn : Frames fn)
    (ha : Builds old scope arg) :
    Builds old scope (do
      let f ← fn
      expect .closeBracket .closingBracket
      if (← current).startsExpression then
        Term.newApp f (← arg)
      else return f) := by
  intro r t r' hb h
  obtain ⟨f, r₁, h₁, h⟩ := bind_eq_ok h
  obtain ⟨_, r₂, h₂, h⟩ := bind_eq_ok h
  have hb₂ := (hb.of_ok hfn h₁).of_ok (frames_expect _ _) h₂
  have hbuilt := hf r f r₁ hb h₁
  rw [← onlyReads_expect _ _ r₁ _ r₂ h₂] at hbuilt
  rw [current_bind] at h
  split at h
  · obtain ⟨a, r₃, h₃, h₄⟩ := bind_eq_ok h
    have hbuilt' := ha r₂ a r₃ hb₂ h₃
    cases h₄
    exact hbuilt.app hbuilt' hb.le
  · cases h
    exact hbuilt

/-- A term that is read is put together from what the supply hands out meanwhile, and from copies
of outcomes of commands of the program. -/
theorem builds_expressionWithin (room : List Char) (hs : ∀ head ∈ scope, head.bound = true) :
    Builds old scope (expressionWithin room scope) := by
  induction room generalizing scope with
  | nil => exact builds_throw _
  | cons _ room ih =>
    refine Builds.after onlyReads_current frames_current fun token => ?_
    split
    · refine Builds.after_advance ?_
      refine Builds.after (onlyReads_identifier _) (frames_identifier _) fun word => ?_
      refine Builds.after (onlyReads_expect _ _) (frames_expect _ _) fun _ => ?_
      exact builds_lambda word fun head hh => ih (List.forall_mem_cons.mpr ⟨hh, hs⟩)
    · have hframes := frames_expressionWithin room scope
      exact Builds.after_advance (builds_brackets (ih hs) hframes (ih hs))
    · exact Builds.after_advance (builds_occurrence hs _)
    · exact Builds.after_advance (builds_numeral _)
    · exact Builds.after_advance (builds_truth _)
    · exact Builds.after_advance (builds_expansion _)
    · exact Builds.after onlyReads_current frames_current fun _ => builds_throw _

end

theorem command_wellFormed {room : List Char} {c : Command} (hr : r.Sound)
    (h : command room r = .ok c r') : c.term.WellFormed r'.supply.id := by
  obtain ⟨t, r₁, h₁, h⟩ := bind_eq_ok h
  obtain ⟨conversion, r₂, h₂, h⟩ := bind_eq_ok h
  cases h
  have hb : Behind r.supply.id r := ⟨hr, Nat.le_refl r.supply.id⟩
  have hbuilt : t.Built r.supply.id [] r.supply.id r₁.supply.id :=
    builds_expressionWithin room (by simp) r t r₁ hb h₁
  have ht := hbuilt.wellFormed (Nat.le_refl r.supply.id)
  exact ht.mono (frames_conversion.keeps_of_ok h₂).le

end Read

end LambdaCalc
