import LambdaCalc.Proofs.Budget
import LambdaCalc.Proofs.Feeding
import LambdaCalc.Proofs.Repetition
import LambdaCalc.Proofs.Rereading

namespace LambdaCalc

theorem Token.read_ne_unfinished (isReserved : String → Bool) (input : List Char) :
    (read isReserved input).1 ≠ .error .unfinished := by
  rw [read]
  split
  · rintro ⟨⟩
  · unfold readFrom ofDigits
    repeat' split
    all_goals rintro ⟨⟩

theorem Read.failure_ne_unfinished (wanted : Expectation) (found : Token) :
    failure wanted found ≠ .unfinished := by
  cases found <;> rintro ⟨⟩

theorem BetaReduction.outcome_execute_ne_unfinished {b : BetaReduction} (hb : b.budget ≠ 0)
    (patience : Nat) (t : Term) (s : Supply) :
    (b.execute patience t).outcome s ≠ .error .unfinished := by
  obtain ⟨steps, budget⟩ := b
  change budget ≠ 0 at hb
  rcases Nat.eq_zero_or_pos steps with rfl | hpos
  · rcases lt_or_ge (budget : ℕ∞) (t.stepsToNormal s) with hlt | hle
    · rw [outcome_execute_of_budget_lt budget patience t s hb hlt]
      rintro ⟨⟩
    · obtain ⟨k, hk⟩ := ENat.ne_top_iff_exists.mp (ne_top_of_le_ne_top (ENat.natCast_ne_top _) hle)
      rw [← hk, Nat.cast_le] at hle
      rw [outcome_execute_of_normal budget k patience t s hk.symm (by rwa [if_neg hb])]
      rintro ⟨⟩
  · obtain ⟨j, -, hj⟩ := outcome_execute_of_pos steps budget patience t s hpos
    rw [hj]
    rintro ⟨⟩

/-- A command that was read where a budget is set has an outcome, whatever the patience. -/
theorem Command.outcome_execute_ne_unfinished {c : Command} {budget : Nat} (hb : budget ≠ 0)
    (hc : c.conversion.Within budget) (patience : Nat) (s : Supply) :
    (c.execute patience).outcome s ≠ .error .unfinished := by
  obtain ⟨t, conversion⟩ := c
  cases conversion with
  | identity => rintro ⟨⟩
  | alpha old new =>
    change (t.rename old new).outcome s ≠ _
    obtain ⟨s', -, hs | ⟨t', -, hs⟩ | hs⟩ := Term.rename_spec old new t s
    all_goals
      rw [Attempt.outcome, hs]
      rintro ⟨⟩
  | beta b =>
    obtain ⟨rfl, -⟩ := hc
    exact BetaReduction.outcome_execute_ne_unfinished hb patience t s

namespace Read

variable {α β : Type} {s₀ : Source} {least : Nat} {r r' : Reader} {tokens : List Token}
  {word : String} {c : Command}

/-- The work is never given up. -/
def Decides (work : Read α) : Prop := ∀ r r', work r ≠ .error .unfinished r'

theorem Decides.bind {work : Read α} {next : α → Read β} (hw : Decides work)
    (hn : ∀ a, Decides (next a)) : Decides (work >>= next) := by
  intro r r' h
  rcases bind_eq_error h with h | ⟨a, r₁, -, h⟩
  · exact hw r r' h
  · exact hn a r₁ r' h

theorem decides_pure (a : α) : Decides (pure a) := by
  rintro r r' ⟨⟩

theorem decides_get : Decides get := by
  rintro r r' ⟨⟩

theorem decides_current : Decides current := by
  rintro r r' ⟨⟩

theorem decides_fresh (work : Fresh α) : Decides (liftM work : Read α) := by
  rintro r r' ⟨⟩

theorem decides_throw {e : Error} (he : e ≠ .unfinished) : Decides (throw e : Read α) := by
  intro r r' h
  cases h
  exact he rfl

theorem decides_refuse (wanted : Expectation) : Decides (refuse wanted : Read α) :=
  decides_current.bind fun _ => decides_throw (failure_ne_unfinished wanted _)

theorem decides_advance : Decides advance := by
  intro r r' h
  rw [advance] at h
  split at h
  · cases h
  · next e he =>
    cases h
    exact Token.read_ne_unfinished _ _ he

theorem decides_expect (operator : Operator) (wanted : Expectation) :
    Decides (expect operator wanted) := by
  refine decides_current.bind fun token => ?_
  split
  · exact decides_advance
  · exact decides_refuse wanted

theorem decides_identifier (wanted : Expectation) : Decides (identifier wanted) := by
  refine decides_current.bind fun token => ?_
  split
  · exact decides_advance.bind fun _ => decides_pure _
  · exact decides_refuse wanted

theorem decides_name (wanted : Expectation) : Decides (name wanted) := by
  refine decides_current.bind fun token => ?_
  split
  · exact decides_advance.bind fun _ => decides_pure _
  · exact decides_refuse wanted

theorem decides_count (digits : String) : Decides (count digits) := by
  rw [count]
  split
  · exact decides_pure _
  · exact decides_throw (by rintro ⟨⟩)

theorem decides_numeral (digits : String) : Decides (numeral digits) := by
  refine (decides_count digits).bind fun n => ?_
  split
  · exact decides_throw (by rintro ⟨⟩)
  · exact decides_fresh _

theorem decides_occurrence (scope : List Variable) (word : String) :
    Decides (occurrence scope word) := by
  rw [occurrence]
  split
  · exact decides_fresh _
  · exact (decides_fresh _).bind fun _ => decides_fresh _

theorem decides_conversion : Decides conversion := by
  have hcount : Decides stepCount := by
    refine decides_current.bind fun token => ?_
    split
    · exact decides_advance.bind fun _ => decides_count _
    · exact decides_advance.bind fun _ => decides_pure _
    · exact decides_pure 1
  have hbeta : Decides beta :=
    hcount.bind fun _ => (decides_expect _ _).bind fun _ => decides_get.bind fun _ => decides_pure _
  have halpha : Decides alpha :=
    (decides_identifier _).bind fun _ => (decides_expect _ _).bind fun _ =>
      (decides_identifier _).bind fun _ => decides_pure _
  refine decides_current.bind fun token => ?_
  split
  · exact hbeta
  · exact hbeta
  · exact hbeta
  · exact halpha
  · exact decides_pure _

/-- An empty statement takes a character, so the first token is found before the room is used up. -/
theorem firstToken_ne_unfinished {room : List Char}
    (hroom : r.source.input.length < room.length) : firstToken room r ≠ .error .unfinished r' := by
  intro h
  induction room generalizing r with
  | nil => cases hroom
  | cons _ room ih =>
    rcases bind_eq_error h with ha | ⟨u, r₁, ha, -⟩
    · exact decides_advance r r' ha
    · rw [firstToken_of_advance ha] at h
      split at h
      · next hc =>
        refine ih ?_ h
        obtain ⟨q, hq, rfl⟩ := advance_eq_ok_iff.mp ha
        obtain ⟨-, hn⟩ := Place.passes_singleton.mp hq
        have hlt := Token.length_lt_of_read (Source.read_of_next hn) (by
          rw [show q.current = .operator .semicolon from hc]
          rintro ⟨⟩)
        exact Nat.lt_of_lt_of_le hlt (Nat.le_of_lt_succ hroom)
      · cases h

/-- The run is at a name that it has looked up. From the first reader on nothing was given back to
the supply, and the command behind the name was executed then without an answer. -/
inductive Stuck (s₀ : Source) (r r' : Reader) : Prop
  | at {word : String} {tokens : List Token} {c : Command} {s : Supply} :
      s₀.Leads (.name word :: tokens) r'.place → r.program.get? word = some c →
      r.supply.id ≤ s.id → c.execute r.patience s = .error .unfinished r'.supply → Stuck s₀ r r'

theorem Stuck.of_keeps {r₁ : Reader} (hk : r.Keeps r₁) (h : Stuck s₀ r₁ r') : Stuck s₀ r r' := by
  obtain ⟨hl, hc, hle, he⟩ := h
  rw [hk.program] at hc
  rw [hk.patience] at he
  exact .at hl hc (Nat.le_trans hk.le hle) he

/-- From wherever so many tokens were passed, the work is given up only at a name. -/
structure Awaits (s₀ : Source) (least : Nat) (work : Read α) : Prop where
  follows : Follows s₀ least work
  frames : Frames work
  stuck : ∀ {r r' : Reader} {tokens : List Token}, s₀.Leads tokens r.place →
    least ≤ tokens.length → work r = .error .unfinished r' → Stuck s₀ r r'

theorem Decides.awaits {work : Read α} (h : Decides work) (hf : Follows s₀ least work)
    (hk : Frames work) : Awaits s₀ least work :=
  ⟨hf, hk, fun _ _ he => absurd he (h _ _)⟩

theorem Awaits.bind {work : Read α} {next : α → Read β} (hw : Awaits s₀ least work)
    (hn : ∀ a, Awaits s₀ least (next a)) : Awaits s₀ least (work >>= next) := by
  refine ⟨hw.follows.bind fun a => (hn a).follows, hw.frames.bind fun a => (hn a).frames, ?_⟩
  intro r r' tokens hl hlen h
  rcases bind_eq_error h with h | ⟨a, r₁, h₁, h⟩
  · exact hw.stuck hl hlen h
  · have hout := hw.follows r tokens hl hlen
    rw [h₁] at hout
    obtain ⟨tokens₁, hl₁, hlen₁⟩ := hout
    exact ((hn a).stuck hl₁ hlen₁ h).of_keeps (hw.frames.keeps_of_ok h₁)

theorem awaits_pure (a : α) : Awaits s₀ least (pure a) :=
  (decides_pure a).awaits (follows_pure a) (frames_pure a)

theorem awaits_fresh {work : Fresh α} (h : work.Grows) : Awaits s₀ least (liftM work : Read α) :=
  (decides_fresh work).awaits (follows_fresh work) (frames_fresh h)

theorem awaits_expect (operator : Operator) (wanted : Expectation) :
    Awaits s₀ least (expect operator wanted) :=
  (decides_expect _ _).awaits (follows_expect _ _) (frames_expect _ _)

theorem awaits_identifier (wanted : Expectation) : Awaits s₀ least (identifier wanted) :=
  (decides_identifier _).awaits (follows_identifier _) (frames_identifier _)

theorem awaits_name (wanted : Expectation) : Awaits s₀ least (name wanted) :=
  (decides_name _).awaits (follows_name _) (frames_name _)

/-- Behind the token that is moved over the work may rely on one token more. -/
theorem stuck_after_advance {work : Read α} (hl : s₀.Leads tokens r.place)
    (hs : r.current.stops = false)
    (hwork : ∀ r₁ : Reader, s₀.Leads (r.current :: tokens) r₁.place →
      work r₁ = .error .unfinished r' → Stuck s₀ r₁ r')
    (h : (advance >>= fun _ => work) r = .error .unfinished r') : Stuck s₀ r r' := by
  rcases bind_eq_error h with ha | ⟨u, r₁, ha, h⟩
  · exact absurd ha (decides_advance r r')
  · have hout := outcome_advance_of_leads hl hs
    obtain ⟨q, hq, rfl⟩ := advance_eq_ok_iff.mp ha
    have hl₁ : s₀.Leads (r.current :: tokens) (r.moveTo q).place :=
      .next hl hs (Place.passes_singleton.mp hq).2
    exact (hwork _ hl₁ h).of_keeps (frames_advance.keeps_of_ok ha)

/-- A name is given up only while its command is executed. -/
theorem stuck_of_expansion (hl : s₀.Leads (.name word :: tokens) r.place)
    (h : expansion word r = .error .unfinished r') : Stuck s₀ r r' := by
  rcases bind_eq_error h with h | ⟨r₁, r₂, hg, h⟩
  · cases h
  · cases hg
    cases hc : r.program.get? word with
    | none =>
      rw [hc] at h
      cases h
    | some c =>
      rw [hc] at h
      rcases bind_eq_error h with h | ⟨t, r₁, -, h⟩
      · obtain ⟨s, he, rfl⟩ := ofAttempt_eq_error h
        exact .at hl hc (Nat.le_refl _) he
      · exact absurd h (decides_fresh _ r₁ r')

theorem awaits_expressionWithin {room : List Char} (scope : List Variable)
    (hroom : s₀.input.length < least + room.length) :
    Awaits s₀ least (expressionWithin room scope) := by
  refine ⟨follows_expressionWithin scope hroom, frames_expressionWithin room scope, ?_⟩
  induction room generalizing least scope with
  | nil =>
    intro r r' tokens hl hlen
    have := hl.length_le.1
    simp only [List.length_nil] at hroom
    omega
  | cons _ room ih =>
    intro r r' tokens hl hlen h
    have hroom' : s₀.input.length < tokens.length + 1 + room.length := by
      simp only [List.length_cons] at hroom
      omega
    have hinner (scope : List Variable) :
        Awaits s₀ (tokens.length + 1) (expressionWithin room scope) :=
      ⟨follows_expressionWithin scope hroom', frames_expressionWithin room scope, ih scope hroom'⟩
    rw [expressionWithin, current_bind] at h
    generalize hc : r.current = token at h
    split at h
    case h_1 =>
      refine stuck_after_advance hl (by rw [hc]; rfl) (fun r₁ hl₁ => ?_) h
      refine Awaits.stuck ?_ hl₁ (Nat.le_refl _)
      refine (awaits_identifier _).bind fun word => (awaits_expect _ _).bind fun _ => ?_
      refine (awaits_fresh fun s => Nat.le_succ s.id).bind fun head => ?_
      exact (hinner _).bind fun body => awaits_fresh fun s => Nat.le_refl s.id
    case h_2 =>
      refine stuck_after_advance hl (by rw [hc]; rfl) (fun r₁ hl₁ => ?_) h
      refine Awaits.stuck ?_ hl₁ (Nat.le_refl _)
      refine (hinner scope).bind fun fn => (awaits_expect _ _).bind fun _ => ?_
      refine ((decides_current.awaits (fun _ tokens hl hlen => ⟨tokens, hl, hlen⟩)
        frames_current)).bind fun token => ?_
      split
      · exact (hinner scope).bind fun arg => awaits_fresh fun s => Nat.le_refl s.id
      · exact awaits_pure fn
    case h_3 => exact absurd h (decides_advance.bind (fun _ => decides_occurrence scope _) r r')
    case h_4 => exact absurd h (decides_advance.bind (fun _ => decides_numeral _) r r')
    case h_5 => exact absurd h (decides_advance.bind (fun _ => decides_fresh _) r r')
    case h_6 =>
      exact stuck_after_advance hl (by rw [hc]; rfl) (fun r₁ hl₁ => stuck_of_expansion (hc ▸ hl₁)) h
    case h_7 => exact absurd h (decides_refuse _ r r')

theorem awaits_command {room : List Char} (hroom : s₀.input.length < least + room.length) :
    Awaits s₀ least (command room) :=
  (awaits_expressionWithin [] hroom).bind fun _ =>
    (decides_conversion.awaits follows_conversion frames_conversion).bind fun _ => awaits_pure _

theorem stuck_of_assignment {room : List Char} (hroom : s₀.input.length < room.length)
    (hl : s₀.Leads tokens r.place) (hc : r.current = .operator .quote)
    (h : assignment room r = .error .unfinished r') : Stuck s₀ r r' := by
  have hs : r.current.stops = false := by
    rw [hc]
    rfl
  refine stuck_after_advance hl hs (fun r₁ hl₁ => ?_) (assignment_error h)
  have hroom' : s₀.input.length < tokens.length + 1 + room.length := by omega
  refine Awaits.stuck ?_ hl₁ (Nat.le_refl _)
  refine (awaits_name _).bind fun word => (awaits_expect _ _).bind fun _ => ?_
  exact (awaits_expect _ _).bind fun _ => (awaits_command hroom').bind fun c => awaits_pure _

/-- A statement is given up only in the execution of a command that it has looked up. -/
theorem stuck_of_statement (h : statement r = .error .unfinished r') : Stuck r.source r r' := by
  have hroom : r.source.input.length < r.source.room.length := Nat.lt_succ_self _
  have hbegun := begun_of_room hroom
  rw [statement, room_bind] at h
  rcases bind_eq_error h with hf | ⟨first, r₁, hf, h⟩
  · exact absurd hf (firstToken_ne_unfinished hroom)
  · rw [hf] at hbegun
    obtain ⟨hc, tokens, hl⟩ := hbegun
    refine Stuck.of_keeps ((frames_firstToken _).keeps_of_ok hf) ?_
    have hclosed {work : Read Command} (hw : work r₁ = .error .unfinished r' → Stuck r.source r₁ r')
        (h : closed work r₁ = .error .unfinished r') : Stuck r.source r₁ r' := by
      rcases closed_error h with h | ⟨c, -, -, he⟩
      · exact hw h
      · exact absurd he.symm (failure_ne_unfinished _ _)
    split at h
    · cases h
    · cases h
    · change (if first = .operator .quote then closed (assignment r.source.room)
        else closed (command r.source.room)) r₁ = _ at h
      split at h
      · next hq => exact hclosed (stuck_of_assignment hroom hl (hc.trans hq)) h
      · have hroom' : r.source.input.length < 0 + r.source.room.length := by omega
        exact hclosed ((awaits_command hroom').stuck hl (Nat.zero_le _)) h

end Read

/-- A command that has an outcome has it with every patience that is large enough. -/
theorem Command.exists_enough (c : Command) (s : Supply) :
    ∃ enough, ¬c.Diverges s → ∀ patience, enough ≤ patience →
      (c.execute patience).outcome s ≠ .error .unfinished := by
  by_cases hd : c.Diverges s
  · exact ⟨0, absurd hd⟩
  · obtain ⟨enough, hends⟩ := not_forall.mp hd
    refine ⟨enough, fun _ patience hle => ?_⟩
    rwa [execute_of_le hle hends]

/-- One patience is enough for all commands that have a name and an outcome. -/
theorem Program.exists_enough (p : Program) (s : Supply) :
    ∃ enough, ∀ word c, p.get? word = some c → ¬c.Diverges s → ∀ patience, enough ≤ patience →
      (c.execute patience).outcome s ≠ .error .unfinished := by
  obtain ⟨named, last⟩ := p
  induction named with
  | nil => exact ⟨0, nofun⟩
  | cons first named ih =>
    obtain ⟨name, c₁⟩ := first
    obtain ⟨enough, ih⟩ := ih
    obtain ⟨enough₁, h₁⟩ := c₁.exists_enough s
    refine ⟨max enough enough₁, fun word c hc hd patience hle => ?_⟩
    obtain ⟨hle, hle₁⟩ := max_le_iff.mp hle
    rw [get?, List.lookup_cons] at hc
    split at hc
    · cases hc
      exact h₁ hd patience hle₁
    · exact ih word c hc hd patience hle

theorem Read.within_of_command {r r' : Reader} {room : List Char} {c : Command}
    (h : command room r = .ok c r') : c.conversion.Within r.budget := by
  obtain ⟨t, r₁, ht, h⟩ := bind_eq_ok h
  obtain ⟨k, r₂, hk, h⟩ := bind_eq_ok h
  cases h
  obtain ⟨x, q, -, hx, -⟩ := suffix_of_conversion hk
  exact ((frames_expressionWithin room []).keeps_of_ok ht).budget ▸ Conversion.within_of_means hx

namespace Reader

/-- The second reader is at a name that was looked up, and the execution of its command goes on for
ever. -/
def Waits (r r' : Reader) : Prop :=
  ∃ word tokens c, r.source.Leads (.name word :: tokens) r'.place ∧
    r.program.get? word = some c ∧ c.Diverges r.supply

/-- Of the text of the first reader something was taken, and the rest is left. -/
def Shortens (r r' : Reader) : Prop :=
  r'.source.input <:+ r.source.input ∧ r'.source.input.length < r.source.input.length

/-- All commands of the program were read within the budget that is set. -/
def Bounded (r : Reader) : Prop := ∀ c, r.program.Holds c → c.conversion.Within r.budget

variable {r r' : Reader} {e : Error} {c : Command}

/-- With enough patience a statement is given up only if it has to wait for ever. -/
theorem Sound.exists_enough (h : r.Sound) :
    ∃ enough, ∀ patience, enough ≤ patience → ∀ r',
      Read.statement { r with patience := patience } = .error .unfinished r' → r.Waits r' := by
  obtain ⟨enough, henough⟩ := r.program.exists_enough r.supply
  refine ⟨enough, fun patience hle r' hr => ?_⟩
  obtain ⟨hl, hc, hsupply, he⟩ := Read.stuck_of_statement hr
  refine ⟨_, _, _, hl, hc, ?_⟩
  by_contra hd
  refine henough _ _ hc hd patience hle ?_
  -- the command was executed later in the statement, where it ends as it does now
  have hsame := Command.sameOutcome_of_le patience (h _ (.inl ⟨_, hc⟩)).scopedIn hsupply
  refine hsame.symm.error_left ?_
  rw [Attempt.outcome, he]

/-- A statement that is no end of the text takes something of it, also if it fails. -/
theorem shortens_of_statement (r : Reader) :
    (∀ c r', Read.statement r = .ok (some c) r' → r.Shortens r') ∧
      ∀ e r', Read.statement r = .error e r' → r.Shortens r' := by
  obtain ⟨n, hn, -⟩ := Read.statement_withSource r (Nat.le_refl _)
  obtain ⟨hok, herror⟩ := Read.length_statement_lt r
  have hsuffix := Source.input_after_suffix n r.source
  constructor
  · intro c r' h
    rw [h] at hn
    rw [← hn] at hsuffix
    exact ⟨hsuffix, hok c r' h⟩
  · intro e r' h
    rw [h] at hn
    rw [← hn] at hsuffix
    exact ⟨hsuffix, herror e r' h⟩

theorem Learns.within (h : r.Learns r' c) : c.conversion.Within r'.budget := by
  obtain ⟨room, r₁, r₂, -, hc, hbudget, -⟩ := h
  have hk := (Read.frames_command room).keeps_of_ok hc
  exact hbudget ▸ hk.budget ▸ Read.within_of_command hc

namespace Bounded

theorem of_empty (h : r.program = {}) : r.Bounded := by
  intro c hc
  rw [h] at hc
  rcases hc with ⟨word, hc⟩ | hc <;> cases hc

theorem of_gains (h : r.Bounded) (hg : r.Gains r') : r'.Bounded := by
  intro c hc
  rcases hg.commands c hc with hold | hnew
  · exact hg.budget ▸ h c hold
  · exact hnew.within

end Bounded

end Reader

namespace Read

variable {r r' : Reader} {e : Error} {c : Command}

theorem bounded_of_statement_error (hr : r.Bounded) (h : statement r = .error e r') :
    r'.Bounded ∧ r'.budget = r.budget := by
  have hgains := gains_of_statement_error h
  exact ⟨hr.of_gains hgains, hgains.budget⟩

theorem bounded_of_statement_ok {c? : Option Command} (hr : r.Bounded)
    (h : statement r = .ok c? r') :
    r'.Bounded ∧ r'.budget = r.budget ∧ ∀ c, c? = some c → c.conversion.Within r'.budget := by
  obtain ⟨hgains, hlearns⟩ := gains_of_statement_ok h
  exact ⟨hr.of_gains hgains, hgains.budget, fun c hc =>
    (hlearns c (Option.mem_toList.mpr hc)).within⟩

/-- Where a budget is set, a statement is never given up, whatever the patience. -/
theorem statement_ne_unfinished (hr : r.Bounded) (hb : r.budget ≠ 0) :
    statement r ≠ .error .unfinished r' := by
  intro h
  obtain ⟨-, hc, -, he⟩ := stuck_of_statement h
  have hends := Command.outcome_execute_ne_unfinished hb (hr _ (.inl ⟨_, hc⟩)) r.patience
  exact hends _ (by rw [Attempt.outcome, he])

/-- A statement takes a character, so a run is over before the bound on its statements is met. -/
theorem outcomes_ne_unfinished {n : Nat} (hr : r.Bounded) (hb : r.budget ≠ 0)
    (hn : r.source.input.length < n) : outcomes n r ≠ .error .unfinished r' := by
  induction n generalizing r with
  | zero => cases hn
  | succ n ih =>
    intro h
    rcases outcomes_error h with hs | ⟨c, r₁, hs, hrest⟩
    · exact statement_ne_unfinished hr hb hs
    · obtain ⟨hr₁, hbudget, hwithin⟩ := bounded_of_statement_ok hr hs
      have hb₁ : r₁.budget ≠ 0 := hbudget ▸ hb
      rcases hrest with ⟨s, he⟩ | ⟨t, s, -, h⟩
      · have hends := Command.outcome_execute_ne_unfinished hb₁ (hwithin c rfl) r₁.patience
        refine hends r₁.supply ?_
        rw [Attempt.outcome, he]
      · have hlt := (length_statement_lt r).1 c r₁ hs
        exact ih (r := { r₁ with supply := s }) hr₁ hb₁ (by simp only; omega) h

end Read

theorem Script.run_ne_unfinished (text : List Char) {budget : Nat} (hb : budget ≠ 0)
    (patience : Nat) : run text budget patience ≠ .error .unfinished := by
  intro h
  unfold run at h
  split at h
  · cases h
  · next ho =>
    cases h
    exact Read.outcomes_ne_unfinished (.of_empty rfl) hb (Nat.lt_succ_self _) ho

namespace Session

/-- Neither the next statement nor the execution of its command is given up. -/
def Finishes (s : Session) : Prop :=
  s.read.1 ≠ .error .unfinished ∧ ∀ c, s.read.1 = .ok (some c) →
    (c.execute s.read.2.reader.patience).outcome s.read.2.reader.supply ≠ .error .unfinished

variable {s next first last : Session} {output : String} {passed : List Session}

theorem program_of_respond {found : Except Error (Option Command)}
    (h : s.respond found = .next output next) :
    next.reader.program = s.reader.program ∧ next.reader.budget = s.reader.budget := by
  cases found with
  | ok c? =>
    cases c? with
    | none => cases h
    | some c =>
      simp only [respond, perform] at h
      split at h <;> cases h <;> exact ⟨rfl, rfl⟩
  | error e =>
    cases e with
    | reservedWord word =>
      simp only [respond] at h
      split at h
      · cases h
      · split at h <;> cases h <;> exact ⟨rfl, rfl⟩
    | _ =>
      cases h
      exact ⟨rfl, rfl⟩

/-- The session has a budget, within which all commands of its program were read. -/
def Bounded (s : Session) : Prop := s.reader.Bounded ∧ s.reader.budget ≠ 0

namespace Bounded

theorem start (input : List Char) {budget : Nat} (hb : budget ≠ 0) (patience : Nat) :
    (Session.start input budget patience).Bounded :=
  ⟨.of_empty rfl, hb⟩

theorem read (h : s.Bounded) : s.read.2.Bounded := by
  obtain ⟨hr, hb⟩ := h
  cases hs : Read.statement s.reader with
  | ok c? r' =>
    obtain ⟨hr', hbudget, -⟩ := Read.bounded_of_statement_ok hr hs
    rw [read_of_ok hs]
    exact ⟨hr', hbudget ▸ hb⟩
  | error e r' =>
    obtain ⟨hr', hbudget⟩ := Read.bounded_of_statement_error hr hs
    rw [read_of_error hs]
    exact ⟨hr', hbudget ▸ hb⟩

theorem turn (h : s.Bounded) (ht : s.turn = .next output next) : next.Bounded := by
  obtain ⟨hprogram, hbudget⟩ := program_of_respond ht
  obtain ⟨hr, hb⟩ := h.read
  refine ⟨fun c hc => ?_, hbudget ▸ hb⟩
  rw [hprogram] at hc
  exact hbudget ▸ hr c hc

theorem finishes (h : s.Bounded) : s.Finishes := by
  obtain ⟨hr, hb⟩ := h
  cases hs : Read.statement s.reader with
  | ok c? r' =>
    obtain ⟨-, hbudget, hwithin⟩ := Read.bounded_of_statement_ok hr hs
    rw [Finishes, read_of_ok hs]
    refine ⟨nofun, fun c hc => ?_⟩
    cases hc
    exact Command.outcome_execute_ne_unfinished (hbudget ▸ hb) (hwithin c rfl) _ _
  | error e r' =>
    rw [Finishes, read_of_error hs]
    refine ⟨fun he => ?_, nofun⟩
    cases he
    exact Read.statement_ne_unfinished hr hb hs

end Bounded

/-- What holds of a session and of every one that follows it by a turn holds on the way. -/
theorem After.bounded (h : first.After passed last) (hfirst : first.Bounded) :
    ∀ s ∈ last :: passed, s.Bounded := by
  induction h with
  | start => exact List.forall_mem_singleton.mpr hfirst
  | turn _ ht ih =>
    refine List.forall_mem_cons.mpr ⟨?_, ih⟩
    exact (List.forall_mem_cons.mp ih).1.turn ht

/-- Every turn before the last one takes a character. -/
theorem After.length_le (h : first.After passed last) :
    passed.length + last.reader.source.input.length ≤ first.reader.source.input.length := by
  induction h with
  | start => simp
  | turn _ ht ih =>
    have hlt := length_lt_of_turn ht
    rw [List.length_cons]
    omega

theorem ending_ne_unfinished {ending : Ending} (h : s.turn = .stop output ending) :
    ending ≠ .unfinished := by
  rcases turn_eq_stop_iff.mp h with ⟨-, -, rfl⟩ | ⟨word, -, -, -, rfl⟩ <;> rintro ⟨⟩

end Session

namespace Read

/-- A statement either finds the end of the text, and then nothing is left of it, or takes something
of it, also if it fails. With enough patience it is given up only at a name whose command goes on
for ever. Where a budget is set, no run of a text is given up, and no session: it is left after a
turn more at most than characters were read, and no statement and no execution on the way is given
up. -/
theorem progress_of_statement :
    (∀ r : Reader, r.Reachable →
      (∀ r', statement r = .ok none r' → r'.source.input = []) ∧
        (∀ c r', statement r = .ok (some c) r' → r.Shortens r') ∧
        (∀ e r', statement r = .error e r' → r.Shortens r') ∧
        ∃ enough, ∀ patience, enough ≤ patience → ∀ r',
          statement { r with patience := patience } = .error .unfinished r' → r.Waits r') ∧
      ∀ (text : List Char) (budget patience : Nat), budget ≠ 0 →
        Script.run text budget patience ≠ .error .unfinished ∧
          (Session.run text budget patience).2 ≠ .unfinished ∧
          ∃ passed last, (Session.start text budget patience).After passed last ∧
            last.turn = .stop last.answer (Session.run text budget patience).2 ∧
            passed.length + last.reader.source.input.length ≤ text.length ∧
            ∀ s ∈ last :: passed, s.Finishes := by
  constructor
  · intro r hr
    obtain ⟨hok, herror⟩ := r.shortens_of_statement
    exact ⟨fun r' => input_of_statement_none, hok, herror, hr.sound.exists_enough⟩
  · intro text budget patience hb
    obtain ⟨passed, last, hafter, hstop, -⟩ := Session.exists_stop_of_run text budget patience
    refine ⟨Script.run_ne_unfinished text hb patience, Session.ending_ne_unfinished hstop,
      passed, last, hafter, hstop, hafter.length_le, fun s hs => ?_⟩
    exact (hafter.bounded (.start text hb patience) s hs).finishes

/-- A reader of a text that gives a name to a reduction without an end, and then uses the name. -/
def boundedLoop : Reader where
  source := { input := "'W' = (\\x . (x) x) \\x . (x) x 0>; W".toList }
  budget := 3
  patience := 0

theorem progress_of_statement_boundedLoop :
    (∃ c r₁ r₂ r₃, statement boundedLoop = .ok (some c) r₁ ∧ boundedLoop.Shortens r₁ ∧
      statement r₁ = .error (.budgetExceeded 3) r₂ ∧ r₁.Shortens r₂ ∧
      statement r₂ = .ok none r₃ ∧ r₃.source.input = []) ∧
    Script.run boundedLoop.source.input 3 0 = .error (.budgetExceeded 3) ∧
    ∃ passed last, (Session.start boundedLoop.source.input 3 0).After passed last ∧
      last.turn = .stop last.answer .endOfInput ∧
      passed.length + last.reader.source.input.length ≤ boundedLoop.source.input.length ∧
      ∀ s ∈ last :: passed, s.Finishes := by
  obtain ⟨hstatement, hrun⟩ := progress_of_statement
  have hstart : boundedLoop.Reachable := .start _ _ _ _
  refine ⟨?_, by decide +kernel, ?_⟩
  · have hreads : ((answers? statement boundedLoop).bind fun first =>
        (stops? statement first.2).bind fun second =>
          (answers? statement second.2).map fun third =>
            (first.1.isSome, second.1, third.1.isSome)) =
        some (true, .budgetExceeded 3, false) := by decide +kernel
    obtain ⟨⟨c?, r₁⟩, h₁, hreads⟩ := Option.bind_eq_some_iff.mp hreads
    obtain ⟨⟨e, r₂⟩, h₂, hreads⟩ := Option.bind_eq_some_iff.mp hreads
    obtain ⟨⟨last?, r₃⟩, h₃, hreads⟩ := Option.map_eq_some_iff.mp hreads
    simp only [Prod.mk.injEq, Option.isSome_eq_false_iff, Option.isNone_iff_eq_none] at hreads
    obtain ⟨hsome, rfl, rfl⟩ := hreads
    obtain ⟨c, rfl⟩ := Option.isSome_iff_exists.mp hsome
    rw [answers?_eq_some_iff] at h₁ h₃
    rw [stops?_eq_some_iff] at h₂
    have hfirst : r₁.Reachable := hstart.read h₁
    have hsecond : r₂.Reachable := hfirst.failed h₂
    exact ⟨c, r₁, r₂, r₃, h₁, (hstatement _ hstart).2.1 c r₁ h₁, h₂,
      (hstatement r₁ hfirst).2.2.1 _ r₂ h₂, h₃, (hstatement r₂ hsecond).1 r₃ h₃⟩
  · obtain ⟨-, -, passed, last, hafter, hstop, hlength, hfinishes⟩ :=
      hrun boundedLoop.source.input 3 0 (by decide)
    have hending : (Session.run boundedLoop.source.input 3 0).2 = .endOfInput := by decide +kernel
    exact ⟨passed, last, hafter, hending ▸ hstop, hlength, hfinishes⟩

end Read

end LambdaCalc
