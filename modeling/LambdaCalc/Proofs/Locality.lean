import LambdaCalc.Proofs.Lockstep

namespace LambdaCalc

namespace Source

/-- What is left when so many tokens were cut off. -/
def after : Nat → Source → Source
  | 0, s => s
  | n + 1, s => after n s.next.2

/-- So many tokens are the same in both sources. Where none can be cut off, the reason is. -/
def AgreeFor : Nat → Source → Source → Prop
  | 0, _, _ => True
  | n + 1, s, s' => s'.next.1 = s.next.1 ∧ AgreeFor n s.next.2 s'.next.2

variable {m n : Nat} {s s' : Source}

theorem after_add (m n : Nat) (s : Source) : s.after (m + n) = (s.after m).after n := by
  induction m generalizing s with
  | zero => rw [Nat.zero_add, after]
  | succ m ih => rw [Nat.succ_add, after, ih, after]

theorem agreeFor_add :
    s.AgreeFor (m + n) s' ↔ s.AgreeFor m s' ∧ (s.after m).AgreeFor n (s'.after m) := by
  induction m generalizing s s' with
  | zero => simp [AgreeFor, after]
  | succ m ih => rw [Nat.succ_add, AgreeFor, AgreeFor, ih, after, after, and_assoc]

theorem AgreeFor.symm (h : s.AgreeFor n s') : s'.AgreeFor n s := by
  induction n generalizing s s' with
  | zero => trivial
  | succ n ih => exact ⟨h.1.symm, ih h.2⟩

end Source

/-- The same reader in front of another source. -/
def Reader.withSource (r : Reader) (s : Source) : Reader := { r with source := s }

namespace Read

variable {α β : Type} {r : Reader} {s₀ : Source} {least : Nat} {tokens : List Token}
  {work work' : Read α} {next next' : α → Read β}

/-- The same outcome in front of another source. -/
def facing (s : Source) : EStateM.Result Error Reader α → EStateM.Result Error Reader α
  | .ok a r => .ok a (r.withSource s)
  | .error e r => .error e (r.withSource s)

/-- The reader with which some work has ended. -/
def left : EStateM.Result Error Reader α → Reader
  | .ok _ r => r
  | .error _ r => r

theorem source_left_facing (s : Source) (result : EStateM.Result Error Reader α) :
    (left (facing s result)).source = s := by
  cases result <;> rfl

theorem facing_facing (s s' : Source) (result : EStateM.Result Error Reader α) :
    facing s (facing s' result) = facing s result := by
  cases result <;> rfl

theorem facing_left (result : EStateM.Result Error Reader α) :
    facing (left result).source result = result := by
  cases result <;> rfl

/-- The first piece of work reads so many tokens from here. In front of any source that begins with
the same tokens the second one does the same. -/
def Retraced (r : Reader) (work work' : Read α) : Prop :=
  ∃ n, (left (work r)).source = r.source.after n ∧
    ∀ s', r.source.AgreeFor n s' → work' (r.withSource s') = facing (s'.after n) (work r)

theorem Retraced.bind (hw : Retraced r work work')
    (hn : ∀ a r₁, work r = .ok a r₁ → Retraced r₁ (next a) (next' a)) :
    Retraced r (work >>= next) (work' >>= next') := by
  obtain ⟨m, hm, hm'⟩ := hw
  cases h : work r with
  | error e r₁ =>
    rw [h] at hm hm'
    refine ⟨m, ?_, fun s' hs => ?_⟩
    · rw [bind_of_error h]
      exact hm
    · rw [bind_of_error h, bind_of_error (hm' s' hs)]
      rfl
  | ok a r₁ =>
    rw [h] at hm hm'
    have hsource : r₁.source = r.source.after m := hm
    obtain ⟨n, hn, hn'⟩ := hn a r₁ h
    refine ⟨m + n, ?_, fun s' hs => ?_⟩
    · rw [bind_of_ok h, Source.after_add, ← hsource]
      exact hn
    · obtain ⟨hs, hs'⟩ := Source.agreeFor_add.mp hs
      rw [bind_of_ok h, bind_of_ok (hm' s' hs), Source.after_add]
      exact hn' _ (hsource ▸ hs')

/-- Some work depends on nothing of the text but the tokens that it reads. -/
def Local (work : Read α) : Prop := ∀ r, Retraced r work work

theorem Local.bind (hw : Local work) (hn : ∀ a, Local (next a)) : Local (work >>= next) :=
  fun r => (hw r).bind fun a r₁ _ => hn a r₁

/-- What does not look at the source reads no token. -/
theorem local_of_still (h : ∀ r s, work (r.withSource s) = facing s (work r)) : Local work := by
  intro r
  have hstays : work r = facing r.source (work r) := h r r.source
  refine ⟨0, ?_, fun s' _ => h r s'⟩
  rw [hstays]
  exact source_left_facing _ _

theorem local_pure (a : α) : Local (pure a) := local_of_still fun _ _ => rfl

theorem local_throw (e : Error) : Local (throw e : Read α) := local_of_still fun _ _ => rfl

theorem local_current : Local current := local_of_still fun _ _ => rfl

theorem local_fresh (work : Fresh α) : Local (liftM work : Read α) := local_of_still fun _ _ => rfl

theorem local_ofAttempt (work : Attempt α) : Local (ofAttempt work) := by
  refine local_of_still fun r s => ?_
  have hsupply : (r.withSource s).supply = r.supply := rfl
  rw [ofAttempt, ofAttempt, hsupply]
  split <;> rfl

theorem local_modify (program : Reader → Program)
    (hprogram : ∀ r s, program (Reader.withSource r s) = program r) :
    Local (modify fun r => { r with program := program r }) := by
  refine local_of_still fun r s => ?_
  have hrun (r : Reader) : (modify fun r => { r with program := program r } : Read Unit) r =
      .ok () { r with program := program r } := rfl
  rw [hrun, hrun, hprogram]
  rfl

/-- Of the reader itself, all but its source can be looked at. -/
theorem local_get_bind {next : Reader → Read α} (hn : ∀ r, Local (next r))
    (hsame : ∀ r s, next (Reader.withSource r s) = next r) : Local (get >>= next) := by
  intro r
  obtain ⟨n, hn, hn'⟩ := hn r r
  have hget (r : Reader) : (get >>= next) r = next r r := rfl
  refine ⟨n, by rw [hget]; exact hn, fun s' hs => ?_⟩
  rw [hget, hget, hsame]
  exact hn' s' hs

theorem local_refuse (wanted : Expectation) : Local (refuse wanted : Read α) :=
  local_current.bind fun _ => local_throw _

theorem local_advance : Local advance := by
  intro r
  cases hn : r.source.next with
  | mk found source =>
    refine ⟨1, ?_, fun s' hs => ?_⟩
    · cases found <;> simp only [advance, hn, left, Source.after]
    · cases hn' : s'.next with
      | mk found' source' =>
        obtain ⟨hnext, -⟩ := hs
        rw [hn, hn'] at hnext
        obtain rfl : found' = found := hnext
        cases found' <;> simp only [advance, hn, hn', facing, Source.after, Reader.withSource]

theorem local_expect (operator : Operator) (wanted : Expectation) :
    Local (expect operator wanted) := by
  refine local_current.bind fun token => ?_
  split
  · exact local_advance
  · exact local_refuse wanted

theorem local_identifier (wanted : Expectation) : Local (identifier wanted) := by
  refine local_current.bind fun token => ?_
  split
  · exact local_advance.bind fun _ => local_pure _
  · exact local_refuse wanted

theorem local_name (wanted : Expectation) : Local (name wanted) := by
  refine local_current.bind fun token => ?_
  split
  · exact local_advance.bind fun _ => local_pure _
  · exact local_refuse wanted

theorem local_count (digits : String) : Local (count digits) := by
  rw [count]
  split
  · exact local_pure _
  · exact local_throw _

theorem local_numeral (digits : String) : Local (numeral digits) := by
  refine (local_count digits).bind fun n => ?_
  split
  · exact local_throw _
  · exact local_fresh _

theorem local_occurrence (scope : List Variable) (word : String) :
    Local (occurrence scope word) := by
  rw [occurrence]
  split
  · exact local_fresh _
  · exact (local_fresh _).bind fun v => local_fresh _

theorem local_expansion (word : String) : Local (expansion word) := by
  refine local_get_bind (fun r => ?_) fun _ _ => rfl
  split
  · exact (local_ofAttempt _).bind fun t => local_fresh _
  · exact local_throw _

theorem local_stepCount : Local stepCount := by
  refine local_current.bind fun token => ?_
  split
  · exact local_advance.bind fun _ => local_count _
  · exact local_advance.bind fun _ => local_pure _
  · exact local_pure 1

theorem local_beta : Local beta := by
  refine local_stepCount.bind fun steps => (local_expect _ _).bind fun _ => ?_
  exact local_get_bind (fun r => local_pure _) fun _ _ => rfl

theorem local_alpha : Local alpha :=
  (local_identifier _).bind fun _ => (local_expect _ _).bind fun _ =>
    (local_identifier _).bind fun _ => local_pure _

theorem local_conversion : Local conversion := by
  refine local_current.bind fun token => ?_
  split
  · exact local_beta
  · exact local_beta
  · exact local_beta
  · exact local_alpha
  · exact local_pure _

/-- The second piece of work, which may be given another room, retraces the first one from wherever
so many tokens were passed. -/
def Retraces (s₀ : Source) (least : Nat) (work work' : Read α) : Prop :=
  ∀ r tokens, s₀.Leads tokens r.place → least ≤ tokens.length → Retraced r work work'

theorem Local.retraces (h : Local work) : Retraces s₀ least work work := fun r _ _ _ => h r

theorem Retraces.bind (hw : Retraces s₀ least work work') (hf : Follows s₀ least work)
    (hn : ∀ a, Retraces s₀ least (next a) (next' a)) :
    Retraces s₀ least (work >>= next) (work' >>= next') := by
  intro r tokens hl hlen
  refine (hw r tokens hl hlen).bind fun a r₁ h => ?_
  have hr₁ := hf r tokens hl hlen
  rw [h] at hr₁
  obtain ⟨tokens₁, hl₁, hlen₁⟩ := hr₁
  exact hn a r₁ tokens₁ hl₁ hlen₁

theorem Retraces.after_advance (hw : Retraces s₀ (tokens.length + 1) work work')
    (hl : s₀.Leads tokens r.place) (hs : r.current.stops = false) :
    Retraced r (advance >>= fun _ => work) (advance >>= fun _ => work') := by
  refine (local_advance r).bind fun _ r₁ h => ?_
  have hr₁ := outcome_advance_of_leads hl hs
  rw [h] at hr₁
  obtain ⟨tokens₁, hl₁, hlen₁⟩ := hr₁
  exact hw r₁ tokens₁ hl₁ hlen₁

theorem retraced_current_bind {next next' : Token → Read β}
    (h : Retraced r (next r.current) (next' r.current)) :
    Retraced r (current >>= next) (current >>= next') := by
  refine (local_current r).bind fun token r₁ hc => ?_
  cases hc
  exact h

theorem retraces_expressionWithin {room room' : List Char} (scope : List Variable)
    (hroom : s₀.input.length < least + room.length)
    (hroom' : s₀.input.length < least + room'.length) :
    Retraces s₀ least (expressionWithin room scope) (expressionWithin room' scope) := by
  induction room generalizing least room' scope with
  | nil =>
    intro r tokens hl hlen
    have := hl.length_le.1
    simp only [List.length_nil] at hroom
    omega
  | cons _ room ih =>
    intro r tokens hl hlen
    cases room' with
    | nil =>
      have := hl.length_le.1
      simp only [List.length_nil] at hroom'
      omega
    | cons _ room' =>
      have hless : s₀.input.length < tokens.length + 1 + room.length := by
        simp only [List.length_cons] at hroom
        omega
      have hless' : s₀.input.length < tokens.length + 1 + room'.length := by
        simp only [List.length_cons] at hroom'
        omega
      have hinner (scope : List Variable) : Follows s₀ (tokens.length + 1)
          (expressionWithin room scope) := follows_expressionWithin scope hless
      rw [expressionWithin, expressionWithin]
      refine retraced_current_bind ?_
      generalize hc : r.current = token
      split
      case h_1 =>
        refine Retraces.after_advance ?_ hl (by rw [hc]; rfl)
        refine (local_identifier _).retraces.bind (follows_identifier _) fun word => ?_
        refine (local_expect _ _).retraces.bind (follows_expect _ _) fun _ => ?_
        refine (local_fresh _).retraces.bind (follows_fresh _) fun head => ?_
        exact (ih (head :: scope) hless hless').bind (hinner _) fun body =>
          (local_fresh _).retraces
      case h_2 =>
        refine Retraces.after_advance ?_ hl (by rw [hc]; rfl)
        refine (ih scope hless hless').bind (hinner scope) fun fn => ?_
        refine (local_expect _ _).retraces.bind (follows_expect _ _) fun _ => ?_
        intro r₁ tokens₁ hl₁ hlen₁
        refine retraced_current_bind ?_
        split
        · exact (ih scope hless hless').bind (hinner scope)
            (fun arg => (local_fresh _).retraces) r₁ tokens₁ hl₁ hlen₁
        · exact local_pure fn r₁
      case h_3 => exact (local_occurrence scope _).retraces.after_advance hl (by rw [hc]; rfl)
      case h_4 => exact (local_numeral _).retraces.after_advance hl (by rw [hc]; rfl)
      case h_5 => exact (local_fresh _).retraces.after_advance hl (by rw [hc]; rfl)
      case h_6 => exact (local_expansion _).retraces.after_advance hl (by rw [hc]; rfl)
      case h_7 => exact local_refuse _ r

theorem retraces_command {room room' : List Char}
    (hroom : s₀.input.length < least + room.length)
    (hroom' : s₀.input.length < least + room'.length) :
    Retraces s₀ least (command room) (command room') :=
  (retraces_expressionWithin [] hroom hroom').bind (follows_expressionWithin [] hroom) fun _ =>
    (local_conversion.bind fun _ => local_pure _).retraces

theorem retraced_assignment {room room' : List Char} (hroom : s₀.input.length < room.length)
    (hroom' : s₀.input.length < room'.length) (hl : s₀.Leads tokens r.place)
    (hc : r.current = .operator .quote) : Retraced r (assignment room) (assignment room') := by
  have hless : s₀.input.length < tokens.length + 1 + room.length := by omega
  have hless' : s₀.input.length < tokens.length + 1 + room'.length := by omega
  refine Retraces.after_advance ?_ hl (by rw [hc]; rfl)
  refine (local_name _).retraces.bind (follows_name _) fun word => ?_
  refine (local_expect _ _).retraces.bind (follows_expect _ _) fun _ => ?_
  refine (local_expect _ _).retraces.bind (follows_expect _ _) fun _ => ?_
  refine (retraces_command hless hless').bind (follows_command hless) fun c => ?_
  exact ((local_modify _ fun _ _ => rfl).bind fun _ => local_pure c).retraces

theorem retraced_closed {work work' : Read Command} (h : Retraced r work work') :
    Retraced r (closed work) (closed work') := by
  refine h.bind fun c r₁ _ => retraced_current_bind ?_
  split
  · exact (local_modify _ fun _ _ => rfl).bind (fun _ => local_pure _) r₁
  · exact local_refuse _ r₁

theorem retraced_firstToken {room room' : List Char} (hr : s₀.Reaches tokens r.source)
    (hroom : s₀.input.length < tokens.length + room.length)
    (hroom' : s₀.input.length < tokens.length + room'.length) :
    Retraced r (firstToken room) (firstToken room') := by
  induction room generalizing r room' tokens with
  | nil =>
    have := hr.length_le
    simp only [List.length_nil] at hroom
    omega
  | cons _ room ih =>
    cases room' with
    | nil =>
      have := hr.length_le
      simp only [List.length_nil] at hroom'
      omega
    | cons _ room' =>
      rw [firstToken, firstToken]
      refine (local_advance r).bind fun _ r₁ h => retraced_current_bind ?_
      generalize hc : r₁.current = token
      split
      · obtain ⟨q, hq, rfl⟩ := advance_eq_ok_iff.mp h
        have hs : (r.moveTo q).place.current.stops = false := by
          change (r.moveTo q).current.stops = false
          rw [hc]
          rfl
        have hl := hr.leads (p := (r.moveTo q).place) (Place.passes_singleton.mp hq).2
        simp only [List.length_cons] at hroom hroom'
        refine ih (.behind hl hs) ?_ ?_
        · rw [List.length_cons]
          omega
        · rw [List.length_cons]
          omega
      · exact local_pure _ r₁

/-- A statement that is given its room. -/
def statementWithin (room : List Char) : Read (Option Command) := do
  match ← firstToken room with
  | .reserved word => throw (.reservedWord word)
  | .endOfInput => return none
  | first => if first = .operator .quote then closed (assignment room) else closed (command room)

theorem statement_eq_within (r : Reader) : statement r = statementWithin r.source.room r := by
  rw [statement, room_bind]
  rfl

theorem retraced_statementWithin {room room' : List Char}
    (hroom : r.source.input.length < room.length) (hroom' : r.source.input.length < room'.length) :
    Retraced r (statementWithin room) (statementWithin room') := by
  have hfirst : Retraced r (firstToken room) (firstToken room') :=
    retraced_firstToken .start (by simpa using hroom) (by simpa using hroom')
  refine hfirst.bind fun first r₁ h => ?_
  have hbegun := begun_of_room hroom
  rw [h] at hbegun
  obtain ⟨hc, tokens, hl⟩ := hbegun
  split
  · exact local_throw _ r₁
  · exact local_pure _ r₁
  · split
    · next hquote =>
      exact retraced_closed (retraced_assignment hroom hroom' hl (hc.trans hquote))
    · have hless : r.source.input.length < 0 + room.length := by omega
      have hless' : r.source.input.length < 0 + room'.length := by omega
      exact retraced_closed (retraces_command hless hless' r₁ tokens hl (Nat.zero_le _))

/-- A statement reads so many tokens. In front of any text that begins with these and is no shorter
it is the same, and leaves what stands behind them. -/
theorem statement_withSource (r : Reader) {s' : Source}
    (hlength : r.source.input.length ≤ s'.input.length) :
    ∃ n, (left (statement r)).source = r.source.after n ∧
      (r.source.AgreeFor n s' →
        statement (r.withSource s') = facing (s'.after n) (statement r)) := by
  have hroom : r.source.input.length < r.source.room.length := Nat.lt_succ_self _
  have hroom' : r.source.input.length < s'.room.length := Nat.lt_succ_of_le hlength
  obtain ⟨n, hn, hn'⟩ := retraced_statementWithin hroom hroom'
  rw [← statement_eq_within] at hn hn'
  refine ⟨n, hn, fun hs => ?_⟩
  rw [statement_eq_within (r.withSource s')]
  exact hn' s' hs

/-- A statement is the same in front of a text of the same tokens, however long the two texts
are. -/
theorem statement_of_agree {s' : Source} (h : ∀ n, r.source.AgreeFor n s') :
    ∃ n, (left (statement r)).source = r.source.after n ∧
      statement (r.withSource s') = facing (s'.after n) (statement r) := by
  rcases Nat.le_total r.source.input.length s'.input.length with hle | hle
  · obtain ⟨n, hn, hn'⟩ := statement_withSource r hle
    exact ⟨n, hn, hn' (h n)⟩
  · obtain ⟨n, hn, hn'⟩ := statement_withSource (r.withSource s') hle
    have hback : statement r = facing (r.source.after n) (statement (r.withSource s')) :=
      hn' (h n).symm
    have hstays := facing_left (statement (r.withSource s'))
    rw [hn] at hstays
    refine ⟨n, ?_, ?_⟩
    · rw [hback, source_left_facing]
    · rw [hback, facing_facing]
      exact hstays.symm

end Read

end LambdaCalc
