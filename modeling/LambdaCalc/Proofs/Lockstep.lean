import LambdaCalc.Proofs.Signals

namespace LambdaCalc

/-- Wherever the same tokens lead in the two sources, the same token comes next, or none can be cut
off for the same reason. -/
def Source.Abreast (s₀ s₀' : Source) : Prop :=
  ∀ tokens s s', s₀.Reaches tokens s → s₀'.Reaches tokens s' → s'.next.1 = s.next.1

theorem Source.Reaches.length_le {s₀ s : Source} {tokens : List Token} (h : s₀.Reaches tokens s) :
    tokens.length ≤ s₀.input.length := by
  cases h with
  | start => exact Nat.zero_le _
  | @behind tokens p hl hs =>
    have hend : p.current ≠ .endOfInput := by
      intro he
      rw [he] at hs
      cases hs
    have hlt := hl.length_le.2 hend
    rw [List.length_cons]
    omega

namespace Read

variable {α β : Type} {s₀ s₀' : Source} {least : Nat} {r r' : Reader} {tokens : List Token}

/-- The readers have passed the same tokens, and nothing but their texts differs. -/
structure Level (s₀ s₀' : Source) (tokens : List Token) (r r' : Reader) : Prop where
  leads : s₀.Leads tokens r.place
  leads' : s₀'.Leads tokens r'.place
  same : r' = { r with source := r'.source }

/-- Both runs have the same answer and are level, so many tokens on at least, or both failed with
the same error. -/
def Together (s₀ s₀' : Source) (least : Nat) :
    EStateM.Result Error Reader α → EStateM.Result Error Reader α → Prop
  | .ok a r, .ok a' r' => a' = a ∧ ∃ tokens, Level s₀ s₀' tokens r r' ∧ least ≤ tokens.length
  | .error e _, .error e' _ => e' = e
  | _, _ => False

/-- Both pieces of work do the same from wherever the readers are level. -/
def InStep (s₀ s₀' : Source) (least : Nat) (work work' : Read α) : Prop :=
  ∀ r r' tokens, Level s₀ s₀' tokens r r' → least ≤ tokens.length →
    Together s₀ s₀' least (work r) (work' r')

/-- Both runs found the same first token, at which the readers are level now, or both failed with
the same error. -/
def Started (s₀ s₀' : Source) :
    EStateM.Result Error Reader Token → EStateM.Result Error Reader Token → Prop
  | .ok token r, .ok token' r' =>
      token' = token ∧ r.current = token ∧ ∃ tokens, Level s₀ s₀' tokens r r'
  | .error e _, .error e' _ => e' = e
  | _, _ => False

theorem Together.cases {x y : EStateM.Result Error Reader α} (h : Together s₀ s₀' least x y) :
    (∃ a r r' tokens, x = .ok a r ∧ y = .ok a r' ∧ Level s₀ s₀' tokens r r' ∧
        least ≤ tokens.length) ∨
      ∃ e r r', x = .error e r ∧ y = .error e r' := by
  cases x with
  | ok a r =>
    cases y with
    | ok a' r' =>
      obtain ⟨rfl, tokens, hl, hlen⟩ := h
      exact .inl ⟨a', r, r', tokens, rfl, rfl, hl, hlen⟩
    | error e' r' => exact h.elim
  | error e r =>
    cases y with
    | ok a' r' => exact h.elim
    | error e' r' =>
      obtain rfl : e' = e := h
      exact .inr ⟨e', r, r', rfl, rfl⟩

theorem Started.cases {x y : EStateM.Result Error Reader Token} (h : Started s₀ s₀' x y) :
    (∃ token r r' tokens, x = .ok token r ∧ y = .ok token r' ∧ r.current = token ∧
        Level s₀ s₀' tokens r r') ∨
      ∃ e r r', x = .error e r ∧ y = .error e r' := by
  cases x with
  | ok token r =>
    cases y with
    | ok token' r' =>
      obtain ⟨rfl, hc, tokens, hl⟩ := h
      exact .inl ⟨token', r, r', tokens, rfl, rfl, hc, hl⟩
    | error e' r' => exact h.elim
  | error e r =>
    cases y with
    | ok token' r' => exact h.elim
    | error e' r' =>
      obtain rfl : e' = e := h
      exact .inr ⟨e', r, r', rfl, rfl⟩

theorem Level.together (h : Level s₀ s₀' tokens r r') (hlen : least ≤ tokens.length) (a : α) :
    Together s₀ s₀' least (.ok a r) (.ok a r') :=
  ⟨rfl, tokens, h, hlen⟩

theorem Level.current_eq (h : Level s₀ s₀' tokens r r') : r'.current = r.current := by
  rw [h.same]

theorem Level.reaches' (h : Level s₀ s₀' tokens r r') (hs : r.current.stops = false) :
    s₀'.Reaches (r.current :: tokens) r'.source := by
  rw [← h.current_eq] at hs ⊢
  exact .behind h.leads' hs

theorem Together.mono {least' : Nat} {x y : EStateM.Result Error Reader α}
    (h : Together s₀ s₀' least' x y) (hle : least ≤ least') : Together s₀ s₀' least x y := by
  rcases h.cases with ⟨a, r, r', tokens, rfl, rfl, hl, hlen⟩ | ⟨e, r, r', rfl, rfl⟩
  · exact hl.together (Nat.le_trans hle hlen) a
  · rfl

theorem Together.bind {work work' : Read α} {next next' : α → Read β}
    (hw : Together s₀ s₀' least (work r) (work' r'))
    (hn : ∀ a, InStep s₀ s₀' least (next a) (next' a)) :
    Together s₀ s₀' least ((work >>= next) r) ((work' >>= next') r') := by
  rcases hw.cases with ⟨a, r₁, r₁', tokens, h, h', hl, hlen⟩ | ⟨e, r₁, r₁', h, h'⟩
  · rw [bind_of_ok h, bind_of_ok h']
    exact hn a r₁ r₁' tokens hl hlen
  · rw [bind_of_error h, bind_of_error h']
    rfl

theorem InStep.bind {work work' : Read α} {next next' : α → Read β}
    (hw : InStep s₀ s₀' least work work') (hn : ∀ a, InStep s₀ s₀' least (next a) (next' a)) :
    InStep s₀ s₀' least (work >>= next) (work' >>= next') := by
  intro r r' tokens hl hlen
  exact (hw r r' tokens hl hlen).bind hn

theorem inStep_pure (a : α) : InStep s₀ s₀' least (pure a) (pure a) :=
  fun _ _ _ hl hlen => hl.together hlen a

theorem inStep_throw (e : Error) : InStep s₀ s₀' least (throw e : Read α) (throw e) :=
  fun _ _ _ _ _ => rfl

theorem Level.draw (h : Level s₀ s₀' tokens r r') (s : Supply) :
    Level s₀ s₀' tokens { r with supply := s } { r' with supply := s } :=
  ⟨h.leads, h.leads', by rw [h.same]⟩

theorem Level.write (h : Level s₀ s₀' tokens r r') (program : Program) :
    Level s₀ s₀' tokens { r with program := program } { r' with program := program } :=
  ⟨h.leads, h.leads', by rw [h.same]⟩

theorem inStep_ofAttempt (work : Attempt α) :
    InStep s₀ s₀' least (ofAttempt work) (ofAttempt work) := by
  intro r r' tokens hl hlen
  have hsupply : r'.supply = r.supply := by rw [hl.same]
  rw [ofAttempt, ofAttempt, hsupply]
  split
  · exact (hl.draw _).together hlen _
  · rfl

theorem inStep_fresh (work : Fresh α) :
    InStep s₀ s₀' least (liftM work : Read α) (liftM work) := by
  intro r r' tokens hl hlen
  have hsupply : r'.supply = r.supply := by rw [hl.same]
  rw [liftM_fresh, liftM_fresh, hsupply]
  exact (hl.draw _).together hlen _

theorem inStep_refuse (wanted : Expectation) :
    InStep s₀ s₀' least (refuse wanted : Read α) (refuse wanted) := by
  intro r r' tokens hl _
  change failure wanted r'.current = failure wanted r.current
  rw [hl.current_eq]

theorem inStep_modify (program : Reader → Program)
    (hprogram : ∀ r source, program { r with source := source } = program r) :
    InStep s₀ s₀' least (modify fun r => { r with program := program r })
      (modify fun r => { r with program := program r }) := by
  intro r r' tokens hl hlen
  have hsame : program r' = program r := by
    rw [hl.same]
    exact hprogram r r'.source
  have hrun (r : Reader) : (modify fun r => { r with program := program r } : Read Unit) r =
      .ok () { r with program := program r } := rfl
  rw [hrun, hrun, hsame]
  exact (hl.write _).together hlen ()

theorem inStep_count (digits : String) : InStep s₀ s₀' least (count digits) (count digits) := by
  rw [count]
  split
  · exact inStep_pure _
  · exact inStep_throw _

theorem inStep_numeral (digits : String) :
    InStep s₀ s₀' least (numeral digits) (numeral digits) := by
  refine (inStep_count digits).bind fun n => ?_
  split
  · exact inStep_throw _
  · exact inStep_fresh _

theorem inStep_occurrence (scope : List Variable) (word : String) :
    InStep s₀ s₀' least (occurrence scope word) (occurrence scope word) := by
  rw [occurrence]
  split
  · exact inStep_fresh _
  · exact (inStep_fresh _).bind fun v => inStep_fresh _

theorem inStep_expansion (word : String) :
    InStep s₀ s₀' least (expansion word) (expansion word) := by
  intro r r' tokens hl hlen
  have hprogram : r'.program = r.program := by rw [hl.same]
  have hpatience : r'.patience = r.patience := by rw [hl.same]
  have hget (r : Reader) : (get : Read Reader) r = .ok r r := rfl
  rw [expansion, bind_of_ok (hget r), bind_of_ok (hget r'), hprogram, hpatience]
  cases r.program.get? word with
  | none => rfl
  | some c =>
    have hexpand : InStep s₀ s₀' least
        (ofAttempt (c.execute r.patience) >>= fun t => (liftM t.refresh : Read Term))
        (ofAttempt (c.execute r.patience) >>= fun t => liftM t.refresh) :=
      (inStep_ofAttempt _).bind fun t => inStep_fresh t.refresh
    exact hexpand r r' tokens hl hlen

theorem together_closed {work work' : Read Command}
    (hw : Together s₀ s₀' 0 (work r) (work' r')) :
    Together s₀ s₀' 0 (closed work r) (closed work' r') := by
  refine hw.bind fun c => ?_
  intro r r' tokens hl hlen
  rw [current_bind, current_bind, hl.current_eq]
  split
  · exact ((inStep_modify _ fun _ _ => rfl).bind fun _ => inStep_pure (some c)) r r' tokens hl hlen
  · exact inStep_refuse _ r r' tokens hl hlen

section

variable (h : s₀.Abreast s₀')

include h

theorem together_advance (hr : s₀.Reaches tokens r.source) (hr' : s₀'.Reaches tokens r'.source)
    (hsame : r' = { r with source := r'.source }) (hlen : least ≤ tokens.length) :
    Together s₀ s₀' least (advance r) (advance r') := by
  have hnext := h tokens _ _ hr hr'
  rw [advance, advance]
  cases hn : r.source.next with
  | mk found source =>
    cases hn' : r'.source.next with
    | mk found' source' =>
      rw [hn, hn'] at hnext
      obtain rfl : found' = found := hnext
      cases found' with
      | error e => rfl
      | ok token =>
        exact Level.together ⟨hr.leads (p := ⟨token, source⟩) hn,
          hr'.leads (p := ⟨token, source'⟩) hn', by rw [hsame]⟩ hlen ()

theorem Level.advance (hl : Level s₀ s₀' tokens r r') (hs : r.current.stops = false) :
    Together s₀ s₀' (tokens.length + 1) (advance r) (advance r') := by
  exact together_advance h (.behind hl.leads hs) (hl.reaches' hs) hl.same (Nat.le_refl _)

theorem InStep.after_advance {work work' : Read α}
    (hw : InStep s₀ s₀' (tokens.length + 1) work work') (hl : Level s₀ s₀' tokens r r')
    (hs : r.current.stops = false) (hlen : least ≤ tokens.length) :
    Together s₀ s₀' least ((advance >>= fun _ => work) r) ((advance >>= fun _ => work') r') :=
  ((hl.advance h hs).bind fun _ => hw).mono (Nat.le_succ_of_le hlen)

theorem inStep_expect (operator : Operator) (wanted : Expectation) :
    InStep s₀ s₀' least (expect operator wanted) (expect operator wanted) := by
  intro r r' tokens hl hlen
  rw [expect, current_bind, current_bind, hl.current_eq]
  split
  · next hc =>
    have hs : r.current.stops = false := by
      rw [hc]
      rfl
    exact (hl.advance h hs).mono (Nat.le_succ_of_le hlen)
  · exact inStep_refuse wanted r r' tokens hl hlen

theorem inStep_identifier (wanted : Expectation) :
    InStep s₀ s₀' least (identifier wanted) (identifier wanted) := by
  intro r r' tokens hl hlen
  rw [identifier, current_bind, current_bind, hl.current_eq]
  generalize hc : r.current = token
  split
  · exact (inStep_pure _).after_advance h hl (by rw [hc]; rfl) hlen
  · exact inStep_refuse wanted r r' tokens hl hlen

theorem inStep_name (wanted : Expectation) :
    InStep s₀ s₀' least (name wanted) (name wanted) := by
  intro r r' tokens hl hlen
  rw [name, current_bind, current_bind, hl.current_eq]
  generalize hc : r.current = token
  split
  · exact (inStep_pure _).after_advance h hl (by rw [hc]; rfl) hlen
  · exact inStep_refuse wanted r r' tokens hl hlen

/-- As long as there is room for all tokens, it does not matter how much there is. -/
theorem inStep_expressionWithin {room room' : List Char} (scope : List Variable)
    (hroom : s₀.input.length < least + room.length)
    (hroom' : s₀'.input.length < least + room'.length) :
    InStep s₀ s₀' least (expressionWithin room scope) (expressionWithin room' scope) := by
  -- the two rooms differ in size, and both of them lose a place with every token that is passed
  induction room generalizing least room' scope with
  | nil =>
    intro r r' tokens hl hlen
    have := hl.leads.length_le.1
    simp only [List.length_nil] at hroom
    omega
  | cons _ room ih =>
    intro r r' tokens hl hlen
    cases room' with
    | nil =>
      have := hl.leads'.length_le.1
      simp only [List.length_nil] at hroom'
      omega
    | cons _ room' =>
      have hless : s₀.input.length < tokens.length + 1 + room.length := by
        simp only [List.length_cons] at hroom
        omega
      have hless' : s₀'.input.length < tokens.length + 1 + room'.length := by
        simp only [List.length_cons] at hroom'
        omega
      rw [expressionWithin, expressionWithin, current_bind, current_bind, hl.current_eq]
      generalize hc : r.current = token
      split
      case h_1 =>
        refine InStep.after_advance h ?_ hl (by rw [hc]; rfl) hlen
        refine (inStep_identifier h _).bind fun word => (inStep_expect h _ _).bind fun _ => ?_
        refine (inStep_fresh _).bind fun head => ?_
        exact (ih (head :: scope) hless hless').bind fun body => inStep_fresh _
      case h_2 =>
        refine InStep.after_advance h ?_ hl (by rw [hc]; rfl) hlen
        refine (ih scope hless hless').bind fun fn => (inStep_expect h _ _).bind fun _ => ?_
        intro r₁ r₁' tokens₁ hl₁ hlen₁
        rw [current_bind, current_bind, hl₁.current_eq]
        split
        · exact ((ih scope hless hless').bind fun arg => inStep_fresh _) r₁ r₁' tokens₁ hl₁ hlen₁
        · exact inStep_pure fn r₁ r₁' tokens₁ hl₁ hlen₁
      case h_3 => exact (inStep_occurrence scope _).after_advance h hl (by rw [hc]; rfl) hlen
      case h_4 => exact (inStep_numeral _).after_advance h hl (by rw [hc]; rfl) hlen
      case h_5 => exact (inStep_fresh _).after_advance h hl (by rw [hc]; rfl) hlen
      case h_6 => exact (inStep_expansion _).after_advance h hl (by rw [hc]; rfl) hlen
      case h_7 => exact inStep_refuse _ r r' tokens hl hlen

theorem inStep_stepCount : InStep s₀ s₀' least stepCount stepCount := by
  intro r r' tokens hl hlen
  rw [stepCount, current_bind, current_bind, hl.current_eq]
  generalize hc : r.current = token
  split
  case h_1 => exact (inStep_count _).after_advance h hl (by rw [hc]; rfl) hlen
  case h_2 => exact (inStep_pure _).after_advance h hl (by rw [hc]; rfl) hlen
  case h_3 => exact inStep_pure 1 r r' tokens hl hlen

theorem inStep_beta : InStep s₀ s₀' least beta beta := by
  refine (inStep_stepCount h).bind fun steps => (inStep_expect h _ _).bind fun _ => ?_
  intro r r' tokens hl hlen
  have hbudget : r'.budget = r.budget := by rw [hl.same]
  have hget (r : Reader) : (get : Read Reader) r = .ok r r := rfl
  rw [bind_of_ok (hget r), bind_of_ok (hget r'), hbudget]
  exact hl.together hlen _

theorem inStep_alpha : InStep s₀ s₀' least alpha alpha :=
  (inStep_identifier h _).bind fun _ => (inStep_expect h _ _).bind fun _ =>
    (inStep_identifier h _).bind fun _ => inStep_pure _

theorem inStep_conversion : InStep s₀ s₀' least conversion conversion := by
  intro r r' tokens hl hlen
  rw [conversion, current_bind, current_bind, hl.current_eq]
  generalize r.current = token
  split
  case h_1 => exact inStep_beta h r r' tokens hl hlen
  case h_2 => exact inStep_beta h r r' tokens hl hlen
  case h_3 => exact inStep_beta h r r' tokens hl hlen
  case h_4 => exact inStep_alpha h r r' tokens hl hlen
  case h_5 => exact inStep_pure _ r r' tokens hl hlen

theorem inStep_command {room room' : List Char} (hroom : s₀.input.length < least + room.length)
    (hroom' : s₀'.input.length < least + room'.length) :
    InStep s₀ s₀' least (command room) (command room') :=
  (inStep_expressionWithin h [] hroom hroom').bind fun _ =>
    (inStep_conversion h).bind fun _ => inStep_pure _

theorem together_assignment {room room' : List Char} (hroom : s₀.input.length < room.length)
    (hroom' : s₀'.input.length < room'.length) (hl : Level s₀ s₀' tokens r r')
    (hc : r.current = .operator .quote) :
    Together s₀ s₀' 0 (assignment room r) (assignment room' r') := by
  have hs : r.current.stops = false := by
    rw [hc]
    rfl
  refine InStep.after_advance h ?_ hl hs (Nat.zero_le _)
  refine (inStep_name h _).bind fun word => (inStep_expect h _ _).bind fun _ => ?_
  refine (inStep_expect h _ _).bind fun _ => ?_
  refine (inStep_command h (by omega) (by omega)).bind fun c => ?_
  exact (inStep_modify _ fun _ _ => rfl).bind fun _ => inStep_pure c

/-- As long as there is room for all empty statements, both statements begin with the same token. -/
theorem started_firstToken {room room' : List Char} (hr : s₀.Reaches tokens r.source)
    (hr' : s₀'.Reaches tokens r'.source) (hsame : r' = { r with source := r'.source })
    (hroom : s₀.input.length < tokens.length + room.length)
    (hroom' : s₀'.input.length < tokens.length + room'.length) :
    Started s₀ s₀' (firstToken room r) (firstToken room' r') := by
  induction room generalizing r r' tokens room' with
  | nil => exact absurd hr.length_le (Nat.not_le.mpr hroom)
  | cons _ room ih =>
    cases room' with
    | nil => exact absurd hr'.length_le (Nat.not_le.mpr hroom')
    | cons _ room' =>
      rcases (together_advance h hr hr' hsame (Nat.le_refl _)).cases with
        ⟨u, r₁, r₁', tokens₁, ha, ha', hl, hlen⟩ | ⟨e, r₁, r₁', ha, ha'⟩
      · rw [firstToken_of_advance ha, firstToken_of_advance ha', hl.current_eq]
        split
        · next hc =>
          have hs : r₁.current.stops = false := by
            rw [hc]
            rfl
          simp only [List.length_cons] at hroom hroom'
          exact ih (.behind hl.leads hs) (hl.reaches' hs) hl.same
            (by rw [List.length_cons]; omega) (by rw [List.length_cons]; omega)
        · exact ⟨rfl, rfl, tokens₁, hl⟩
      · rw [firstToken, firstToken, bind_of_error ha, bind_of_error ha']
        rfl

end

/-- In front of texts that hand out the same tokens, two readers that differ in nothing else read
the same statement or fail with the same error. -/
theorem together_statement (h : r.source.Abreast r'.source)
    (hsame : r' = { r with source := r'.source }) :
    Together r.source r'.source 0 (statement r) (statement r') := by
  have hroom (r : Reader) : r.source.input.length < r.source.room.length := Nat.lt_succ_self _
  have hstarted := started_firstToken h .start .start hsame
    (by simpa using hroom r) (by simpa using hroom r')
  rw [statement, room_bind, room_bind]
  rcases hstarted.cases with ⟨first, r₁, r₁', tokens, hf, hf', hc, hl⟩ | ⟨e, r₁, r₁', hf, hf'⟩
  · rw [bind_of_ok hf, bind_of_ok hf']
    split
    · next word => rfl
    · exact hl.together (Nat.zero_le _) none
    · change Together r.source r'.source 0
        ((if first = .operator .quote then closed (assignment r.source.room)
          else closed (command r.source.room)) r₁)
        ((if first = .operator .quote then closed (assignment r'.source.room)
          else closed (command r'.source.room)) r₁')
      split
      · next hq =>
        exact together_closed (together_assignment h (hroom r) (hroom r') hl (hc.trans hq))
      · refine together_closed (inStep_command h ?_ ?_ r₁ r₁' tokens hl (Nat.zero_le _))
        · simpa using hroom r
        · simpa using hroom r'
  · rw [bind_of_error hf, bind_of_error hf']
    rfl

end Read

end LambdaCalc
