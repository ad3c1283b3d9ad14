import LambdaCalc.Proofs.Grammar
import LambdaCalc.Proofs.Statement

namespace LambdaCalc

namespace Token

/-- No rule moves on over a reserved word or over the end of the text. -/
def stops : Token → Bool
  | reserved _ => true
  | endOfInput => true
  | _ => false

theorem ne_reserved_of_not_stops {token : Token} (h : token.stops = false) (word : String) :
    token ≠ .reserved word := by
  rintro rfl
  cases h

end Token

namespace Source

/-- Reading the source leads over these tokens, the last one first, to a place behind them. -/
inductive Leads (s₀ : Source) : List Token → Place → Prop
  | first {p : Place} : s₀.next = (.ok p.current, p.source) → Leads s₀ [] p
  | next {tokens : List Token} {p q : Place} :
      Leads s₀ tokens p → p.current.stops = false → p.source.next = (.ok q.current, q.source) →
      Leads s₀ (p.current :: tokens) q

/-- Over the same tokens it leads to this source, from which the next token is to be cut off. -/
inductive Reaches (s₀ : Source) : List Token → Source → Prop
  | start : Reaches s₀ [] s₀
  | behind {tokens : List Token} {p : Place} :
      s₀.Leads tokens p → p.current.stops = false → Reaches s₀ (p.current :: tokens) p.source

variable {s₀ s s' : Source} {found : Except Error Token} {tokens : List Token} {p : Place}

theorem Reaches.leads (h : s₀.Reaches tokens s) (hn : s.next = (.ok p.current, p.source)) :
    s₀.Leads tokens p := by
  cases h with
  | start => exact .first hn
  | behind hl hs => exact .next hl hs hn

theorem Leads.exists_reaches (h : s₀.Leads tokens p) :
    ∃ s, s₀.Reaches tokens s ∧ s.next = (.ok p.current, p.source) := by
  cases h with
  | first hn => exact ⟨s₀, .start, hn⟩
  | next hl hs hn => exact ⟨_, .behind hl hs, hn⟩

theorem raised_of_next (h : s.next = (found, s')) :
    s'.reserved = s.reserved ∧ s'.raised = s.raised ++ s.signals found := by
  obtain rfl : s.next.1 = found := by rw [h]
  obtain rfl : s.next.2 = s' := by rw [h]
  exact ⟨rfl, rfl⟩

theorem signals_eq_nil {token : Token} (h : ∀ word, token ≠ .reserved word) :
    s.signals (.ok token) = [] := by
  cases token with
  | reserved word => exact absurd rfl (h word)
  | _ => rfl

theorem signals_congr (h : s.reserved = s'.reserved) (found : Except Error Token) :
    s.signals found = s'.signals found := by
  simp only [signals, h]

/-- Of all tokens that were read only the last one can have raised a signal. -/
theorem Leads.raised (h : s₀.Leads tokens p) :
    p.source.reserved = s₀.reserved ∧
      p.source.raised = s₀.raised ++ s₀.signals (.ok p.current) := by
  induction h with
  | first hn => exact raised_of_next hn
  | @next tokens p q _ hs hn ih =>
    obtain ⟨hreserved, hraised⟩ := ih
    obtain ⟨hreserved', hraised'⟩ := raised_of_next hn
    rw [signals_eq_nil (Token.ne_reserved_of_not_stops hs), List.append_nil] at hraised
    rw [hreserved', hraised', hraised, signals_congr hreserved]
    exact ⟨hreserved, rfl⟩

theorem Leads.raised_of_ne_reserved (h : s₀.Leads tokens p)
    (hc : ∀ word, p.current ≠ .reserved word) : p.source.raised = s₀.raised := by
  rw [h.raised.2, signals_eq_nil hc, List.append_nil]

/-- Nothing was raised on the way to a token that is still to be read. -/
theorem Reaches.raised (h : s₀.Reaches tokens s) :
    s.reserved = s₀.reserved ∧ s.raised = s₀.raised := by
  cases h with
  | start => exact ⟨rfl, rfl⟩
  | behind hl hs =>
    exact ⟨hl.raised.1, hl.raised_of_ne_reserved (Token.ne_reserved_of_not_stops hs)⟩

/-- A reserved word that was read last has raised its signal. -/
theorem Leads.raised_of_reserved {word : String} (h : s₀.Leads tokens p)
    (hc : p.current = .reserved word) :
    ∃ signal, s₀.reserved.lookup word = some signal ∧ p.source.raised = s₀.raised ++ [signal] := by
  obtain ⟨s, hs, hn⟩ := h.exists_reaches
  have hhonest := Token.honest_read s.isReserved s.input
  rw [read_of_next hn, hc] at hhonest
  have hsome : (s₀.reserved.lookup word).isSome = true := hs.raised.1 ▸ hhonest
  obtain ⟨signal, hsignal⟩ := Option.isSome_iff_exists.mp hsome
  refine ⟨signal, hsignal, ?_⟩
  rw [h.raised.2, hc, signals, hsignal]
  rfl

theorem Leads.length_le (h : s₀.Leads tokens p) :
    tokens.length + p.source.input.length ≤ s₀.input.length ∧
      (p.current ≠ .endOfInput →
        tokens.length + p.source.input.length + 1 ≤ s₀.input.length) := by
  induction h with
  | first hn =>
    have hread := read_of_next hn
    simp only [List.length_nil, Nat.zero_add]
    exact ⟨Token.length_le_of_read hread, Token.length_lt_of_read hread⟩
  | @next tokens p q _ hs hn ih =>
    have hread := read_of_next hn
    have hend : p.current ≠ .endOfInput := by
      intro he
      simp [he, Token.stops] at hs
    have hp := ih.2 hend
    have hle := Token.length_le_of_read hread
    simp only [List.length_cons]
    refine ⟨by omega, ?_⟩
    intro hq
    have hlt := Token.length_lt_of_read hread hq
    omega

end Source

/-- The reader cannot make sense of the token. This shows only after it has moved on. -/
inductive Reader.Rejects (r : Reader) : Token → Error → Prop
  | undefined {word : String} :
      r.program.get? word = none → Rejects r (.name word) (.undefinedName word)
  | failing {word : String} {c : Command} {s : Supply} {e : Error} :
      r.program.get? word = some c → c.execute r.patience s = .error e r.supply →
      Rejects r (.name word) e
  | numeral {digits : String} :
      numeralBound < Text.Decimal.value digits.toList →
      Rejects r (.number digits) (.numeralTooLarge digits)
  | count {digits : String} :
      Text.Decimal.countBound ≤ Text.Decimal.value digits.toList →
      Rejects r (.number digits) (.countTooLarge digits)

theorem Reader.Rejects.ne_reservedWord {r : Reader} {token : Token} {e : Error}
    (h : r.Rejects token e) (word : String) : e ≠ .reservedWord word := by
  cases h with
  | undefined _ => simp
  | failing _ he =>
    obtain ⟨old, new, rfl⟩ | ⟨budget, rfl⟩ | rfl := Command.execute_error he <;> simp
  | numeral _ => simp
  | count _ => simp

namespace Read

variable {α β : Type} {s₀ : Source} {least : Nat} {r : Reader} {tokens : List Token}

/-- Why reading can have stopped. -/
inductive Fault (s₀ : Source) (e : Error) (r : Reader) : Prop
  /-- No token could be cut off. -/
  | unread {tokens : List Token} {s : Source} :
      s₀.Reaches tokens s → s.next = (.error e, r.source) → Fault s₀ e r
  /-- The current token is not what it should be. -/
  | refused {tokens : List Token} (wanted : Expectation) :
      s₀.Leads tokens r.place → e = failure wanted r.current → Fault s₀ e r
  /-- The token in front of the current one has no meaning. -/
  | rejected {token : Token} {tokens : List Token} :
      s₀.Leads (token :: tokens) r.place → r.Rejects token e → Fault s₀ e r

/-- Reading has passed so many tokens at least, or it has stopped. -/
def Outcome (s₀ : Source) (least : Nat) : EStateM.Result Error Reader α → Prop
  | .ok _ r => ∃ tokens, s₀.Leads tokens r.place ∧ least ≤ tokens.length
  | .error e r => Fault s₀ e r

/-- Some work reads on from wherever so many tokens were passed. -/
def Follows (s₀ : Source) (least : Nat) (work : Read α) : Prop :=
  ∀ r tokens, s₀.Leads tokens r.place → least ≤ tokens.length → Outcome s₀ least (work r)

theorem Outcome.mono {result : EStateM.Result Error Reader α} {least' : Nat}
    (h : Outcome s₀ least' result) (hle : least ≤ least') : Outcome s₀ least result := by
  cases result with
  | ok a r =>
    obtain ⟨tokens, hl, hlen⟩ := h
    exact ⟨tokens, hl, Nat.le_trans hle hlen⟩
  | error e r => exact h

theorem Outcome.bind {work : Read α} {next : α → Read β} (hw : Outcome s₀ least (work r))
    (hn : ∀ a, Follows s₀ least (next a)) : Outcome s₀ least ((work >>= next) r) := by
  cases h : work r with
  | ok a r₁ =>
    rw [h] at hw
    obtain ⟨tokens, hl, hlen⟩ := hw
    rw [bind_of_ok h]
    exact hn a r₁ tokens hl hlen
  | error e r₁ =>
    rw [h] at hw
    rw [bind_of_error h]
    exact hw

theorem Follows.bind {work : Read α} {next : α → Read β} (hw : Follows s₀ least work)
    (hn : ∀ a, Follows s₀ least (next a)) : Follows s₀ least (work >>= next) := by
  intro r tokens hl hlen
  exact (hw r tokens hl hlen).bind hn

theorem follows_pure (a : α) : Follows s₀ least (pure a) :=
  fun _ tokens hl hlen => ⟨tokens, hl, hlen⟩

theorem follows_fresh (work : Fresh α) : Follows s₀ least (liftM work : Read α) :=
  fun _ tokens hl hlen => ⟨tokens, hl, hlen⟩

theorem follows_get : Follows s₀ least get := fun _ tokens hl hlen => ⟨tokens, hl, hlen⟩

theorem follows_refuse (wanted : Expectation) : Follows s₀ least (refuse wanted : Read α) :=
  fun _ _ hl _ => .refused wanted hl rfl

theorem outcome_advance (hr : s₀.Reaches tokens r.source) (hlen : least ≤ tokens.length) :
    Outcome s₀ least (advance r) := by
  rw [advance]
  cases hn : r.source.next with
  | mk found source =>
    cases found with
    | ok token => exact ⟨tokens, hr.leads (p := ⟨token, source⟩) hn, hlen⟩
    | error e => exact .unread hr hn

theorem outcome_advance_of_leads (hl : s₀.Leads tokens r.place) (hs : r.current.stops = false) :
    Outcome s₀ (tokens.length + 1) (advance r) :=
  outcome_advance (.behind hl hs) (Nat.le_refl _)

theorem outcome_advance_then {work : Read α} (hl : s₀.Leads tokens r.place)
    (hs : r.current.stops = false)
    (hwork : ∀ r₁ : Reader, s₀.Leads (r.current :: tokens) r₁.place → Outcome s₀ least (work r₁)) :
    Outcome s₀ least ((advance >>= fun _ => work) r) := by
  have ha := outcome_advance_of_leads hl hs
  cases h : advance r with
  | ok u r₁ =>
    obtain ⟨q, hq, rfl⟩ := advance_eq_ok_iff.mp h
    rw [bind_of_ok h]
    exact hwork (r.moveTo q) (.next hl hs (Place.passes_singleton.mp hq).2)
  | error e r₁ =>
    rw [h] at ha
    rw [bind_of_error h]
    exact ha

theorem Follows.after_advance {work : Read α} (hw : Follows s₀ (tokens.length + 1) work)
    (hl : s₀.Leads tokens r.place) (hs : r.current.stops = false) (hlen : least ≤ tokens.length) :
    Outcome s₀ least ((advance >>= fun _ => work) r) := by
  refine outcome_advance_then hl hs fun r₁ hl₁ => ?_
  exact (hw r₁ _ hl₁ (Nat.le_refl _)).mono (Nat.le_succ_of_le hlen)

theorem follows_expect (operator : Operator) (wanted : Expectation) :
    Follows s₀ least (expect operator wanted) := by
  intro r tokens hl hlen
  rw [expect, current_bind]
  split
  · next hc =>
    have hs : r.current.stops = false := by
      rw [hc]
      rfl
    exact (outcome_advance_of_leads hl hs).mono (Nat.le_succ_of_le hlen)
  · exact follows_refuse wanted r tokens hl hlen

theorem follows_identifier (wanted : Expectation) : Follows s₀ least (identifier wanted) := by
  intro r tokens hl hlen
  rw [identifier, current_bind]
  generalize hc : r.current = token
  split
  · exact (follows_pure _).after_advance hl (by rw [hc]; rfl) hlen
  · exact follows_refuse wanted r tokens hl hlen

theorem follows_name (wanted : Expectation) : Follows s₀ least (name wanted) := by
  intro r tokens hl hlen
  rw [name, current_bind]
  generalize hc : r.current = token
  split
  · exact (follows_pure _).after_advance hl (by rw [hc]; rfl) hlen
  · exact follows_refuse wanted r tokens hl hlen

section

variable {digits word : String}

theorem count_cases (digits : String) (r : Reader) :
    count digits r = .ok (Text.Decimal.value digits.toList) r ∨
      (count digits r = .error (.countTooLarge digits) r ∧
        Text.Decimal.countBound ≤ Text.Decimal.value digits.toList) := by
  rcases Nat.lt_or_ge (Text.Decimal.value digits.toList) Text.Decimal.countBound with hlt | hle
  · exact .inl (count_eq_ok_iff.mpr ⟨⟨rfl, hlt⟩, rfl⟩)
  · have hnone : Text.Decimal.bounded? digits.toList = none := if_neg (Nat.not_lt.mpr hle)
    refine .inr ⟨?_, hle⟩
    rw [count, hnone]
    rfl

theorem outcome_count (hl : s₀.Leads (.number digits :: tokens) r.place)
    (hlen : least ≤ tokens.length + 1) : Outcome s₀ least (count digits r) := by
  obtain hn | ⟨he, hle⟩ := count_cases digits r
  · rw [hn]
    exact ⟨_, hl, hlen⟩
  · rw [he]
    exact .rejected hl (.count hle)

theorem outcome_numeral (hl : s₀.Leads (.number digits :: tokens) r.place)
    (hlen : least ≤ tokens.length + 1) : Outcome s₀ least (numeral digits r) := by
  obtain hn | ⟨he, hle⟩ := count_cases digits r
  · rw [numeral, bind_of_ok hn]
    split
    · next hlt => exact .rejected hl (.numeral hlt)
    · exact ⟨_, hl, hlen⟩
  · rw [numeral, bind_of_error he]
    exact .rejected hl (.count hle)

theorem outcome_expansion (hl : s₀.Leads (.name word :: tokens) r.place)
    (hlen : least ≤ tokens.length + 1) : Outcome s₀ least (expansion word r) := by
  have hg : (get : Read Reader) r = .ok r r := rfl
  rw [expansion, bind_of_ok hg]
  cases hc : r.program.get? word with
  | none => exact .rejected hl (.undefined hc)
  | some c =>
    have hrun : Outcome s₀ least (ofAttempt (c.execute r.patience) r) := by
      rw [ofAttempt]
      cases he : c.execute r.patience r.supply with
      | ok u s => exact ⟨_, hl, hlen⟩
      | error e s => exact .rejected hl (.failing hc he)
    exact hrun.bind fun t => follows_fresh t.refresh

end

theorem follows_occurrence (scope : List Variable) (word : String) :
    Follows s₀ least (occurrence scope word) := by
  rw [occurrence]
  split
  · exact follows_fresh _
  · exact (follows_fresh _).bind fun v => follows_fresh _

/-- Every level of nesting takes a token, so a term never runs out of room. -/
theorem follows_expressionWithin {room : List Char} (scope : List Variable)
    (hroom : s₀.input.length < least + room.length) :
    Follows s₀ least (expressionWithin room scope) := by
  induction room generalizing least scope with
  | nil =>
    intro r tokens hl hlen
    have := hl.length_le.1
    simp only [List.length_nil] at hroom
    omega
  | cons _ room ih =>
    intro r tokens hl hlen
    have hroom' : s₀.input.length < tokens.length + 1 + room.length := by
      simp only [List.length_cons] at hroom
      omega
    rw [expressionWithin, current_bind]
    generalize hc : r.current = token
    split
    case h_1 =>
      refine Follows.after_advance ?_ hl (by rw [hc]; rfl) hlen
      refine (follows_identifier _).bind fun word => (follows_expect _ _).bind fun _ => ?_
      refine (follows_fresh _).bind fun head => ?_
      exact (ih (head :: scope) hroom').bind fun body => follows_fresh _
    case h_2 =>
      refine Follows.after_advance ?_ hl (by rw [hc]; rfl) hlen
      refine (ih scope hroom').bind fun fn => (follows_expect _ _).bind fun _ => ?_
      intro r₁ tokens₁ hl₁ hlen₁
      rw [current_bind]
      split
      · exact ((ih scope hroom').bind fun arg => follows_fresh _) r₁ tokens₁ hl₁ hlen₁
      · exact follows_pure fn r₁ tokens₁ hl₁ hlen₁
    case h_3 => exact (follows_occurrence scope _).after_advance hl (by rw [hc]; rfl) hlen
    case h_4 =>
      refine outcome_advance_then hl (by rw [hc]; rfl) fun r₁ hl₁ => ?_
      exact outcome_numeral (hc ▸ hl₁) (Nat.le_succ_of_le hlen)
    case h_5 => exact (follows_fresh _).after_advance hl (by rw [hc]; rfl) hlen
    case h_6 =>
      refine outcome_advance_then hl (by rw [hc]; rfl) fun r₁ hl₁ => ?_
      exact outcome_expansion (hc ▸ hl₁) (Nat.le_succ_of_le hlen)
    case h_7 => exact follows_refuse _ r tokens hl hlen

theorem follows_stepCount : Follows s₀ least stepCount := by
  intro r tokens hl hlen
  rw [stepCount, current_bind]
  generalize hc : r.current = token
  split
  case h_1 =>
    refine outcome_advance_then hl (by rw [hc]; rfl) fun r₁ hl₁ => ?_
    exact outcome_count (hc ▸ hl₁) (Nat.le_succ_of_le hlen)
  case h_2 => exact (follows_pure _).after_advance hl (by rw [hc]; rfl) hlen
  case h_3 => exact follows_pure 1 r tokens hl hlen

theorem follows_beta : Follows s₀ least beta :=
  follows_stepCount.bind fun _ => (follows_expect _ _).bind fun _ =>
    follows_get.bind fun _ => follows_pure _

theorem follows_alpha : Follows s₀ least alpha :=
  (follows_identifier _).bind fun _ => (follows_expect _ _).bind fun _ =>
    (follows_identifier _).bind fun _ => follows_pure _

theorem follows_conversion : Follows s₀ least conversion := by
  intro r tokens hl hlen
  rw [conversion, current_bind]
  generalize r.current = token
  split
  case h_1 => exact follows_beta r tokens hl hlen
  case h_2 => exact follows_beta r tokens hl hlen
  case h_3 => exact follows_beta r tokens hl hlen
  case h_4 => exact follows_alpha r tokens hl hlen
  case h_5 => exact follows_pure _ r tokens hl hlen

theorem follows_command {room : List Char} (hroom : s₀.input.length < least + room.length) :
    Follows s₀ least (command room) :=
  (follows_expressionWithin [] hroom).bind fun _ => follows_conversion.bind fun _ => follows_pure _

theorem follows_modify (program : Reader → Program) :
    Follows s₀ least (modify fun r => { r with program := program r }) :=
  fun _ tokens hl hlen => ⟨tokens, hl, hlen⟩

theorem outcome_assignment {room : List Char} (hroom : s₀.input.length < room.length)
    (hl : s₀.Leads tokens r.place) (hc : r.current = .operator .quote) :
    Outcome s₀ 0 (assignment room r) := by
  have hs : r.current.stops = false := by
    rw [hc]
    rfl
  have hroom' : s₀.input.length < tokens.length + 1 + room.length := by omega
  refine Follows.after_advance ?_ hl hs (Nat.zero_le _)
  refine (follows_name _).bind fun word => (follows_expect _ _).bind fun _ => ?_
  refine (follows_expect _ _).bind fun _ => (follows_command hroom').bind fun c => ?_
  exact (follows_modify _).bind fun _ => follows_pure c

/-- A statement is over at a token that is no reserved word, or it has stopped. -/
def Ended (s₀ : Source) : EStateM.Result Error Reader α → Prop
  | .ok _ r => (∃ tokens, s₀.Leads tokens r.place) ∧ ∀ word, r.current ≠ .reserved word
  | .error e r => Fault s₀ e r

theorem ended_closed {work : Read Command} (hw : Outcome s₀ 0 (work r)) :
    Ended s₀ (closed work r) := by
  cases h : work r with
  | error e r₁ =>
    rw [h] at hw
    rw [closed, bind_of_error h]
    exact hw
  | ok c r₁ =>
    rw [h] at hw
    obtain ⟨tokens, hl, -⟩ := hw
    rw [closed, bind_of_ok h, current_bind]
    split
    · next hc => exact ⟨⟨tokens, hl⟩, fun word hw => by simp [hc] at hw⟩
    · exact .refused .semicolon hl rfl

theorem firstToken_of_advance {c : Char} {room : List Char} {r₁ : Reader}
    (h : advance r = .ok () r₁) :
    firstToken (c :: room) r =
      if r₁.current = .operator .semicolon then firstToken room r₁ else .ok r₁.current r₁ := by
  rw [firstToken, bind_of_ok h, current_bind]
  by_cases hc : r₁.current = .operator .semicolon
  · rw [if_pos hc, hc]
  · rw [if_neg hc]
    generalize r₁.current = token at hc ⊢
    split
    · exact absurd rfl hc
    · rfl

/-- The first token of a statement is the current one, or there was none to be read. -/
def Begun (s₀ : Source) : EStateM.Result Error Reader Token → Prop
  | .ok token r => r.current = token ∧ ∃ tokens, s₀.Leads tokens r.place
  | .error e r => Fault s₀ e r

theorem begun_firstToken {c : Char} {room : List Char} (ha : Outcome s₀ least (advance r))
    (hn : ∀ r₁ tokens, s₀.Leads tokens r₁.place → least ≤ tokens.length →
      r₁.current = .operator .semicolon → Begun s₀ (firstToken room r₁)) :
    Begun s₀ (firstToken (c :: room) r) := by
  cases h : advance r with
  | error e r₁ =>
    rw [firstToken, bind_of_error h]
    rwa [h] at ha
  | ok u r₁ =>
    rw [h] at ha
    obtain ⟨tokens, hl, hlen⟩ := ha
    rw [firstToken_of_advance h]
    split
    · next hc => exact hn r₁ tokens hl hlen hc
    · exact ⟨rfl, tokens, hl⟩

/-- Every empty statement takes a token, so the room suffices for all of them. -/
theorem begun_after_semicolon {room : List Char} (hl : s₀.Leads tokens r.place)
    (hc : r.current = .operator .semicolon)
    (hroom : s₀.input.length ≤ tokens.length + room.length) :
    Begun s₀ (firstToken room r) := by
  induction room generalizing r tokens with
  | nil =>
    have := hl.length_le.2 (by simp [Reader.place, hc])
    simp only [List.length_nil] at hroom
    omega
  | cons c' room ih =>
    have hs : r.current.stops = false := by
      rw [hc]
      rfl
    refine begun_firstToken (outcome_advance_of_leads hl hs) ?_
    intro r₁ tokens₁ hl₁ hlen₁ hc₁
    simp only [List.length_cons] at hroom
    exact ih hl₁ hc₁ (by omega)

theorem begun_of_room {room : List Char} (hroom : r.source.input.length < room.length) :
    Begun r.source (firstToken room r) := by
  obtain ⟨c, room, rfl⟩ := List.exists_cons_of_length_pos (Nat.zero_lt_of_lt hroom)
  have hless : r.source.input.length ≤ room.length := Nat.le_of_lt_succ hroom
  refine begun_firstToken (outcome_advance .start (Nat.le_refl 0)) fun r₁ tokens hl _ hc => ?_
  exact begun_after_semicolon hl hc (by omega)

theorem ended_statement (r : Reader) : Ended r.source (statement r) := by
  have hroom : r.source.input.length < r.source.room.length := Nat.lt_succ_self _
  have hb := begun_of_room hroom
  rw [statement, room_bind]
  cases h : firstToken r.source.room r with
  | error e r₁ =>
    rw [h] at hb
    rw [bind_of_error h]
    exact hb
  | ok first r₁ =>
    rw [h] at hb
    obtain ⟨hc, tokens, hl⟩ := hb
    rw [bind_of_ok h]
    split
    · next word => exact .refused .expression hl (by rw [hc]; rfl)
    · exact ⟨⟨tokens, hl⟩, fun word hw => by simp [hc] at hw⟩
    · change Ended r.source ((if first = .operator .quote then closed (assignment r.source.room)
        else closed (command r.source.room)) r₁)
      split
      · next hq => exact ended_closed (outcome_assignment hroom hl (hc.trans hq))
      · have hroom' : r.source.input.length < 0 + r.source.room.length := by omega
        exact ended_closed (follows_command hroom' r₁ tokens hl (Nat.zero_le _))

/-- Between the reserved word and the error lies a token without meaning: the one in front of the
word. -/
def Overtaken (s₀ : Source) (word : String) (e : Error) (r : Reader) : Prop :=
  r.current = .reserved word ∧
    ∃ token tokens, s₀.Leads (token :: tokens) r.place ∧ r.Rejects token e

/-- A fault raises at most one signal, that of the reserved word at which the reader stands. -/
theorem Fault.raised {e : Error} (h : Fault s₀ e r) :
    (r.source.raised = s₀.raised ∧ ∀ word, e ≠ .reservedWord word) ∨
      ∃ word signal, s₀.reserved.lookup word = some signal ∧
        r.source.raised = s₀.raised ++ [signal] ∧
        (e = .reservedWord word ∨
          Overtaken s₀ word e r ∧ ∀ other, e ≠ .reservedWord other) := by
  cases h with
  | @unread tokens s hr hn =>
    have hhonest := Token.honest_read s.isReserved s.input
    rw [Source.read_of_next hn] at hhonest
    refine .inl ⟨?_, hhonest⟩
    rw [(Source.raised_of_next hn).2, hr.raised.2]
    exact List.append_nil _
  | @refused tokens wanted hl he =>
    cases hc : r.current with
    | reserved word =>
      obtain ⟨signal, hsignal, hraised⟩ := hl.raised_of_reserved hc
      rw [hc] at he
      exact .inr ⟨word, signal, hsignal, hraised, .inl he⟩
    | _ =>
      refine .inl ⟨hl.raised_of_ne_reserved (by simp [Reader.place, hc]), ?_⟩
      rw [hc] at he
      simp [he, failure]
  | @rejected token tokens hl hr =>
    by_cases hc : ∃ word, r.current = .reserved word
    · obtain ⟨word, hc⟩ := hc
      obtain ⟨signal, hsignal, hraised⟩ := hl.raised_of_reserved hc
      exact .inr ⟨word, signal, hsignal, hraised,
        .inr ⟨⟨hc, token, tokens, hl, hr⟩, hr.ne_reservedWord⟩⟩
    · rw [not_exists] at hc
      exact .inl ⟨hl.raised_of_ne_reserved hc, hr.ne_reservedWord⟩

/-- What a statement reports of the reserved words that it reads. If it raises a signal at all it
raises one, and reports the word of that signal, unless the token in front of the word turns out
to have no meaning and is reported instead. If it reports a reserved word it has raised the signal
of that word and no other. -/
theorem raised_of_statement (r : Reader) :
    (∀ c? r', statement r = .ok c? r' → r'.source.raised = r.source.raised) ∧
      (∀ e r', statement r = .error e r' → r'.source.raised ≠ r.source.raised →
        ∃ word signal, r.source.reserved.lookup word = some signal ∧
          r'.source.raised = r.source.raised ++ [signal] ∧
          (e = .reservedWord word ∨ Overtaken r.source word e r')) ∧
      (∀ word r', statement r = .error (.reservedWord word) r' →
        ∃ signal, r.source.reserved.lookup word = some signal ∧
          r'.source.raised = r.source.raised ++ [signal]) := by
  have hended := ended_statement r
  refine ⟨?_, ?_, ?_⟩
  · intro c? r' h
    rw [h] at hended
    obtain ⟨⟨tokens, hl⟩, hc⟩ := hended
    exact hl.raised_of_ne_reserved hc
  · intro e r' h hne
    rw [h] at hended
    rcases hended.raised with ⟨hraised, -⟩ | ⟨word, signal, hsignal, hraised, he⟩
    · exact absurd hraised hne
    · exact ⟨word, signal, hsignal, hraised, he.imp id And.left⟩
  · intro word r' h
    rw [h] at hended
    rcases hended.raised with ⟨-, hne⟩ | ⟨other, signal, hsignal, hraised, he | ⟨-, hne⟩⟩
    · exact absurd rfl (hne word)
    · cases he
      exact ⟨signal, hsignal, hraised⟩
    · exact absurd rfl (hne word)

/-- A reader of a text in which a reserved word stands behind a name that nothing was assigned
to. -/
def hiddenExit : Reader where
  source := { input := "Foo exit;".toList, reserved := [("exit", "leave")] }
  budget := 0
  patience := 0

theorem statement_hiddenExit :
    ∃ r', statement hiddenExit = .error (.undefinedName "Foo") r' ∧
      r'.source.raised = ["leave"] := by
  have hrun : (stops? statement hiddenExit).map (fun found => (found.1, found.2.source.raised)) =
      some (.undefinedName "Foo", ["leave"]) := by
    decide +kernel
  obtain ⟨⟨e, r'⟩, hs, hfound⟩ := Option.map_eq_some_iff.mp hrun
  simp only [Prod.mk.injEq] at hfound
  obtain ⟨rfl, hraised⟩ := hfound
  exact ⟨r', stops?_eq_some_iff.mp hs, hraised⟩

theorem raised_of_statement_hiddenExit :
    ∃ r', statement hiddenExit = .error (.undefinedName "Foo") r' ∧
      r'.source.raised ≠ hiddenExit.source.raised ∧
      ∃ word signal, hiddenExit.source.reserved.lookup word = some signal ∧
        r'.source.raised = hiddenExit.source.raised ++ [signal] ∧
        Overtaken hiddenExit.source word (.undefinedName "Foo") r' := by
  obtain ⟨r', hs, hraised⟩ := statement_hiddenExit
  have hne : r'.source.raised ≠ hiddenExit.source.raised := by
    rw [hraised]
    decide
  obtain ⟨word, signal, hsignal, happend, he⟩ := (raised_of_statement hiddenExit).2.1 _ r' hs hne
  exact ⟨r', hs, hne, word, signal, hsignal, happend, he.resolve_left (by simp)⟩

/-- The signal of a reserved word can be raised by a statement that reports something else. -/
theorem not_reservedWord_of_raised :
    ¬∀ (r r' : Reader) (e : Error) (word signal : String),
      r.source.reserved = [(word, signal)] → statement r = .error e r' →
        signal ∈ r'.source.raised → e = .reservedWord word := by
  intro h
  obtain ⟨r', hs, hraised⟩ := statement_hiddenExit
  have hleave : "leave" ∈ r'.source.raised := hraised ▸ List.mem_singleton_self "leave"
  have he := h hiddenExit r' _ "exit" "leave" rfl hs hleave
  cases he

end Read

end LambdaCalc
