import LambdaCalc.Proofs.History
import LambdaCalc.Proofs.RoundTrip

namespace LambdaCalc

/-- An identifier that is read is a word that could be read again, whatever is reserved. -/
theorem Token.isIdentifier_of_read {isReserved : String → Bool} {input rest : List Char}
    {word : String} (h : read isReserved input = (.ok (identifier word), rest)) :
    isIdentifier word = true := by
  rw [read] at h
  split at h
  · cases h
  · next c cs _ =>
    rw [readFrom] at h
    split at h
    · cases h
    · split at h
      · next hlower =>
        have hof := congrArg Prod.fst h
        simp only [Except.ok.injEq] at hof
        rw [ofLowercase, ofWord] at hof
        split at hof
        · cases hof
        · split at hof
          · cases hof
          · split at hof
            · cases hof
            · next htrue hfalse =>
              cases hof
              have hall : (cs.takeWhile isWordChar).all isWordChar = true := List.all_takeWhile
              simp only [isIdentifier, String.toList_ofList, hlower, hall, Bool.true_and,
                Bool.and_eq_true, bne_iff_ne]
              exact ⟨htrue, hfalse⟩
      · split at h
        · cases h
        · split at h
          · have hof := congrArg Prod.fst h
            unfold ofDigits at hof
            split at hof
            · cases hof
            · split at hof <;> cases hof
          · split at h <;> cases h

namespace Term

variable {c d : Nat} {t t' : Term}

theorem readable_var {n : Nat} {v : Variable} :
    (var n v).Readable ↔ isIdentifier v.name = true := by
  simp [Readable, heads, vars]

theorem Copied.readable {renewed : List (Nat × Variable)} (h : Copied renewed c d t t')
    (hr : ∀ p ∈ renewed, isIdentifier p.2.name = true) (ht : t.Readable) : t'.Readable := by
  induction h with
  | @renewed renewed c n m v head hl =>
    obtain ⟨before, after, he, _⟩ := List.lookup_eq_some_iff.mp hl
    exact readable_var.mpr (hr (v.id, head) (by simp [he]))
  | kept _ => exact ht
  | lam _ ih =>
    obtain ⟨hhead, hb⟩ := readable_lam.mp ht
    exact readable_lam.mpr ⟨hhead, ih (List.forall_mem_cons.mpr ⟨hhead, hr⟩) hb⟩
  | app _ _ hf ha =>
    obtain ⟨hfn, harg⟩ := readable_app.mp ht
    exact readable_app.mpr ⟨hf hr hfn, ha hr harg⟩

theorem Grafted.readable {id : Nat} {copy : Nat → Nat → Term → Prop} (h : Grafted id copy c d t t')
    (hcopy : ∀ c d u, copy c d u → u.Readable) (ht : t.Readable) : t'.Readable := by
  induction h with
  | hit _ _ hu => exact hcopy _ _ _ hu
  | miss _ => exact ht
  | shadow _ => exact ht
  | lam _ _ ih =>
    obtain ⟨hhead, hb⟩ := readable_lam.mp ht
    exact readable_lam.mpr ⟨hhead, ih hb⟩
  | app _ _ hf ha =>
    obtain ⟨hfn, harg⟩ := readable_app.mp ht
    exact readable_app.mpr ⟨hf hfn, ha harg⟩

theorem Reduced.readable (h : Reduced c d t t') (ht : t.Readable) : t'.Readable := by
  induction h with
  | contract hg =>
    obtain ⟨hfn, harg⟩ := readable_app.mp ht
    exact hg.readable (fun _ _ _ hu => hu.readable (by simp) harg) (readable_lam.mp hfn).2
  | lam _ ih =>
    obtain ⟨hhead, hb⟩ := readable_lam.mp ht
    exact readable_lam.mpr ⟨hhead, ih hb⟩
  | fn _ _ ih =>
    obtain ⟨hfn, harg⟩ := readable_app.mp ht
    exact readable_app.mpr ⟨ih hfn, harg⟩
  | arg _ _ _ ih =>
    obtain ⟨hfn, harg⟩ := readable_app.mp ht
    exact readable_app.mpr ⟨hfn, ih harg⟩

theorem Renamed.readable {old new : String} (h : Renamed old new c t t')
    (hnew : isIdentifier new = true) (ht : t.Readable) : t'.Readable := by
  induction h with
  | here _ _ hg =>
    refine readable_lam.mpr ⟨hnew, hg.readable ?_ (readable_lam.mp ht).2⟩
    rintro c d u ⟨rfl, k, rfl⟩
    exact readable_var.mpr hnew
  | lam _ _ ih =>
    obtain ⟨hhead, hb⟩ := readable_lam.mp ht
    exact readable_lam.mpr ⟨hhead, ih hb⟩
  | fn _ ih =>
    obtain ⟨hfn, harg⟩ := readable_app.mp ht
    exact readable_app.mpr ⟨ih hfn, harg⟩
  | arg _ _ ih =>
    obtain ⟨hfn, harg⟩ := readable_app.mp ht
    exact readable_app.mpr ⟨hfn, ih harg⟩

theorem readable_refresh (ht : t.Readable) (s : Supply) : (t.refresh s).1.Readable :=
  (refresh_copied t s).readable (by simp) ht

theorem readable_applyTimes {f : Variable} (hf : isIdentifier f.name = true) (k : Nat) (s : Supply)
    (ht : t.Readable) : (applyTimes f k t s).1.Readable := by
  induction k generalizing t s with
  | zero => exact ht
  | succ k ih =>
    exact ih { s with node := s.node + 2 } (readable_app.mpr ⟨readable_var.mpr hf, ht⟩)

theorem readable_numeral (n : Nat) (s : Supply) : (numeral n s).1.Readable := by
  have hf : isIdentifier "f" = true := by decide
  have hx : isIdentifier "x" = true := by decide
  exact readable_lam.mpr ⟨hf, readable_lam.mpr ⟨hx,
    readable_applyTimes (f := ⟨"f", true, s.id⟩) hf n _ (readable_var.mpr hx)⟩⟩

theorem readable_truth (value : Bool) (s : Supply) : (truth value s).1.Readable := by
  have ha : isIdentifier "a" = true := by decide
  have hb : isIdentifier "b" = true := by decide
  refine readable_lam.mpr ⟨ha, readable_lam.mpr ⟨hb, readable_var.mpr ?_⟩⟩
  cases value
  · exact hb
  · exact ha

end Term

/-- Both names of a renaming are identifiers. -/
def Conversion.Readable : Conversion → Prop
  | .alpha old new => isIdentifier old = true ∧ isIdentifier new = true
  | _ => True

/-- All names in a command are identifiers. -/
structure Command.Readable (c : Command) : Prop where
  term : c.term.Readable
  conversion : c.conversion.Readable

theorem BetaReduction.readable_proceed {b : BetaReduction} {rounds done : Nat} {t u : Term}
    {s s' : Supply} (h : b.proceed rounds done t s = .ok u s') (ht : t.Readable) : u.Readable :=
  proceed_keeps (fun _ t => t.Readable) (fun ht hred => hred.readable ht) (fun _ ht => ht) ht h

theorem Command.Readable.execute {patience : Nat} {c : Command} {u : Term} {s s' : Supply}
    (hc : c.Readable) (h : c.execute patience s = .ok u s') : u.Readable := by
  obtain ⟨t, conversion⟩ := c
  cases conversion with
  | identity =>
    cases h
    exact hc.term
  | alpha old new =>
    change t.rename old new s = .ok u s' at h
    obtain ⟨s₁, _, hs | ⟨t', hr, hs⟩ | hs⟩ := Term.rename_spec old new t s
    · rw [hs] at h
      cases h
      exact hc.term
    · rw [hs] at h
      cases h
      exact hr.readable hc.conversion.2 hc.term
    · rw [hs] at h
      cases h
  | beta b => exact BetaReduction.readable_proceed h hc.term

/-- The current token and all commands of a reader have identifiers as their names. -/
structure Reader.Literate (r : Reader) : Prop where
  current : ∀ word, r.current = .identifier word → isIdentifier word = true
  commands : ∀ c, r.program.Holds c → c.Readable

theorem Reader.Literate.write {r : Reader} {p : Program} {c : Command} (h : r.Literate)
    (hc : c.Readable) (hp : ∀ c', p.Holds c' → c' = c ∨ r.program.Holds c') :
    Reader.Literate { r with program := p } :=
  ⟨h.current, Program.forall_of_write h.commands hc hp⟩

namespace Read

variable {α β : Type} {good : α → Prop} {good' : β → Prop}

/-- Some work leaves a literate reader literate, and what it answers is good. -/
def Spells (work : Read α) (good : α → Prop) : Prop :=
  ∀ r, r.Literate → match work r with
    | .ok a r' => r'.Literate ∧ good a
    | .error _ r' => r'.Literate

theorem Spells.of_ok {work : Read α} {r r' : Reader} {a : α} (h : Spells work good)
    (hr : r.Literate) (hw : work r = .ok a r') : r'.Literate ∧ good a := by
  have hrun := h r hr
  rwa [hw] at hrun

theorem Spells.of_error {work : Read α} {r r' : Reader} {e : Error} (h : Spells work good)
    (hr : r.Literate) (hw : work r = .error e r') : r'.Literate := by
  have hrun := h r hr
  rwa [hw] at hrun

theorem Spells.bind {work : Read α} {next : α → Read β} (hw : Spells work good)
    (hn : ∀ a, good a → Spells (next a) good') : Spells (work >>= next) good' := by
  intro r hr
  cases h : (work >>= next) r with
  | ok b r' =>
    obtain ⟨a, r₁, h₁, h₂⟩ := bind_eq_ok h
    obtain ⟨hr₁, ha⟩ := hw.of_ok hr h₁
    exact (hn a ha).of_ok hr₁ h₂
  | error e r' =>
    rcases bind_eq_error h with h₁ | ⟨a, r₁, h₁, h₂⟩
    · exact hw.of_error hr h₁
    · obtain ⟨hr₁, ha⟩ := hw.of_ok hr h₁
      exact (hn a ha).of_error hr₁ h₂

theorem spells_pure {a : α} (h : good a) : Spells (pure a) good := fun _ hr => ⟨hr, h⟩

theorem spells_throw (e : Error) : Spells (throw e) good := fun _ hr => hr

theorem spells_current :
    Spells current fun token => ∀ word, token = .identifier word → isIdentifier word = true :=
  fun _ hr => ⟨hr, hr.current⟩

theorem spells_refuse (wanted : Expectation) : Spells (refuse wanted) good :=
  spells_current.bind fun _ _ => spells_throw _

theorem spells_fresh {work : Fresh α} (h : ∀ s, good (work s).1) : Spells (liftM work) good := by
  intro r hr
  rw [liftM_fresh]
  exact ⟨⟨hr.current, hr.commands⟩, h r.supply⟩

theorem spells_advance : Spells advance fun _ => True := by
  intro r hr
  cases h : advance r with
  | ok u r' =>
    obtain ⟨q, hq, rfl⟩ := advance_eq_ok_iff.mp h
    have hn : r.source.next = (.ok q.current, q.source) := (Place.passes_singleton.mp hq).2
    refine ⟨⟨fun word hc => ?_, hr.commands⟩, trivial⟩
    have hc : q.current = .identifier word := hc
    rw [hc] at hn
    exact Token.isIdentifier_of_read (Source.read_of_next hn)
  | error e r' =>
    rw [advance] at h
    cases hn : r.source.next.1 with
    | ok token =>
      simp only [hn] at h
      cases h
    | error e' =>
      simp only [hn] at h
      cases h
      exact ⟨hr.current, hr.commands⟩

theorem Spells.after_advance {work : Read α} (h : Spells work good) :
    Spells (advance >>= fun _ => work) good :=
  spells_advance.bind fun _ _ => h

theorem spells_expect (operator : Operator) (wanted : Expectation) :
    Spells (expect operator wanted) fun _ => True := by
  refine spells_current.bind fun token _ => ?_
  split
  · exact spells_advance
  · exact spells_refuse wanted

theorem spells_identifier (wanted : Expectation) :
    Spells (identifier wanted) fun word => isIdentifier word = true := by
  refine spells_current.bind fun token htoken => ?_
  split
  · next word =>
    have hword : Spells (pure word) fun word => isIdentifier word = true :=
      spells_pure (htoken word rfl)
    exact hword.after_advance
  · exact spells_refuse wanted

theorem spells_name (wanted : Expectation) : Spells (name wanted) fun _ => True := by
  refine spells_current.bind fun token _ => ?_
  split
  · exact (spells_pure trivial).after_advance
  · exact spells_refuse wanted

theorem spells_count (digits : String) : Spells (count digits) fun _ => True := by
  rw [count]
  split
  · exact spells_pure trivial
  · exact spells_throw _

theorem spells_numeral (digits : String) : Spells (numeral digits) Term.Readable := by
  refine (spells_count digits).bind fun n _ => ?_
  split
  · exact spells_throw _
  · exact spells_fresh (Term.readable_numeral n)

theorem spells_occurrence {scope : List Variable} {word : String}
    (hscope : ∀ head ∈ scope, isIdentifier head.name = true) (hword : isIdentifier word = true) :
    Spells (occurrence scope word) Term.Readable := by
  rw [occurrence]
  split
  · next head hf =>
    exact spells_fresh fun s =>
      Term.readable_var.mpr (hscope head (List.mem_of_find?_eq_some hf))
  · have hfree : Spells (liftM (Variable.newFree word)) fun v => isIdentifier v.name = true :=
      spells_fresh fun _ => hword
    exact hfree.bind fun v hv => spells_fresh fun s => Term.readable_var.mpr hv

theorem spells_expansion (word : String) : Spells (expansion word) Term.Readable := by
  intro r hr
  have hframes := frames_expansion word
  cases h : expansion word r with
  | ok t r' =>
    obtain ⟨c, u, s, hc, he, rfl, rfl⟩ := expansion_eq_ok h
    have hu := (hr.commands c (.inl ⟨word, hc⟩)).execute he
    exact ⟨⟨hr.current, hr.commands⟩, Term.readable_refresh hu s⟩
  | error e r' =>
    have hk := hframes.keeps_of_error h
    have hcurrent : r'.current = r.current := by
      have hg : (get : Read Reader) r = .ok r r := rfl
      rw [expansion, bind_of_ok hg] at h
      cases hc : r.program.get? word with
      | none =>
        rw [hc] at h
        cases h
        rfl
      | some c =>
        rw [hc] at h
        rcases bind_eq_error h with h₁ | ⟨t, r₁, _, h₂⟩
        · obtain ⟨s, -, rfl⟩ := ofAttempt_eq_error h₁
          rfl
        · cases h₂
    exact ⟨hcurrent ▸ hr.current, hk.program ▸ hr.commands⟩

theorem spells_expressionWithin (room : List Char) {scope : List Variable}
    (hscope : ∀ head ∈ scope, isIdentifier head.name = true) :
    Spells (expressionWithin room scope) Term.Readable := by
  induction room generalizing scope with
  | nil => exact spells_throw _
  | cons _ room ih =>
    refine spells_current.bind fun token htoken => ?_
    split
    · refine Spells.after_advance ?_
      refine (spells_identifier _).bind fun word hword => (spells_expect _ _).bind fun _ _ => ?_
      have hnew : Spells (liftM (Variable.newBound word)) fun v => isIdentifier v.name = true :=
        spells_fresh fun _ => hword
      refine hnew.bind fun head hhead => ?_
      exact (ih (List.forall_mem_cons.mpr ⟨hhead, hscope⟩)).bind fun body hbody =>
        spells_fresh fun _ => Term.readable_lam.mpr ⟨hhead, hbody⟩
    · refine Spells.after_advance ?_
      refine (ih hscope).bind fun fn hfn => (spells_expect _ _).bind fun _ _ => ?_
      refine spells_current.bind fun token _ => ?_
      split
      · exact (ih hscope).bind fun arg harg =>
          spells_fresh fun _ => Term.readable_app.mpr ⟨hfn, harg⟩
      · exact spells_pure hfn
    · exact (spells_occurrence hscope (htoken _ rfl)).after_advance
    · exact (spells_numeral _).after_advance
    · exact (spells_fresh (Term.readable_truth _)).after_advance
    · exact (spells_expansion _).after_advance
    · exact spells_refuse _

theorem spells_stepCount : Spells stepCount fun _ => True := by
  refine spells_current.bind fun token _ => ?_
  split
  · exact (spells_count _).after_advance
  · exact (spells_pure trivial).after_advance
  · exact spells_pure trivial

theorem spells_beta : Spells beta Conversion.Readable := by
  refine spells_stepCount.bind fun steps _ => (spells_expect _ _).bind fun _ _ => ?_
  have hget : Spells get fun _ => True := fun _ hr => ⟨hr, trivial⟩
  exact hget.bind fun r _ => spells_pure trivial

theorem spells_alpha : Spells alpha Conversion.Readable := by
  refine (spells_identifier _).bind fun old hold => (spells_expect _ _).bind fun _ _ => ?_
  exact (spells_identifier _).bind fun new hnew => spells_pure ⟨hold, hnew⟩

theorem spells_conversion : Spells conversion Conversion.Readable := by
  refine spells_current.bind fun token _ => ?_
  split
  · exact spells_beta
  · exact spells_beta
  · exact spells_beta
  · exact spells_alpha
  · exact spells_pure trivial

theorem spells_command (room : List Char) : Spells (command room) Command.Readable :=
  (spells_expressionWithin room (by simp)).bind fun _ ht =>
    spells_conversion.bind fun _ hk => spells_pure ⟨ht, hk⟩

theorem spells_insert {c : Command} (hc : c.Readable) (word : String) :
    Spells (modify fun r => { r with program := r.program.insert word c }) fun _ => True :=
  fun _ hr => ⟨hr.write hc fun _ h => Program.holds_insert h, trivial⟩

theorem spells_setLast {c : Command} (hc : c.Readable) :
    Spells (modify fun r => { r with program := r.program.setLast c }) fun _ => True :=
  fun _ hr => ⟨hr.write hc fun _ h => Program.holds_setLast h, trivial⟩

theorem spells_assignment (room : List Char) : Spells (assignment room) Command.Readable := by
  refine Spells.after_advance ?_
  refine (spells_name _).bind fun word _ => (spells_expect _ _).bind fun _ _ => ?_
  refine (spells_expect _ _).bind fun _ _ => (spells_command room).bind fun c hc => ?_
  exact (spells_insert hc word).bind fun _ _ => spells_pure hc

theorem spells_closed {work : Read Command} (h : Spells work Command.Readable) :
    Spells (closed work) fun c? => ∀ c ∈ c?, c.Readable := by
  refine h.bind fun c hc => spells_current.bind fun token _ => ?_
  split
  · exact (spells_setLast hc).bind fun _ _ => spells_pure (by simpa using hc)
  · exact spells_refuse _

theorem spells_firstToken (room : List Char) : Spells (firstToken room) fun _ => True := by
  induction room with
  | nil => exact spells_throw _
  | cons _ room ih =>
    refine Spells.after_advance (spells_current.bind fun token _ => ?_)
    split
    · exact ih
    · exact spells_pure trivial

/-- Statements make readable commands of readable ones. -/
theorem spells_statement : Spells statement fun c? => ∀ c ∈ c?, c.Readable := by
  have hroom : Spells room fun _ => True := fun _ hr => ⟨hr, trivial⟩
  refine hroom.bind fun room _ => (spells_firstToken room).bind fun first _ => ?_
  split
  · exact spells_throw _
  · exact spells_pure (by simp)
  · by_cases hquote : first = .operator .quote
    · simp only [if_pos hquote]
      exact spells_closed (spells_assignment room)
    · simp only [if_neg hquote]
      exact spells_closed (spells_command room)

end Read

end LambdaCalc
