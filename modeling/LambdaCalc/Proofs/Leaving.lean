import LambdaCalc.Proofs.Recovery

namespace LambdaCalc

namespace Read

variable {r r' : Reader} {e : Error} {word signal : String}

/-- A reserved word that is reported is the last token that was read. -/
theorem Fault.reported {s₀ : Source} (h : Fault s₀ (.reservedWord word) r) :
    ∃ tokens stands, s₀.Reaches tokens stands ∧ stands.next = (.ok (.reserved word), r.source) := by
  cases h with
  | @unread tokens s hr hn =>
    have hhonest := Token.honest_read s.isReserved s.input
    rw [Source.read_of_next hn] at hhonest
    exact absurd rfl (hhonest word)
  | refused wanted hl he =>
    obtain ⟨s, hs, hn⟩ := hl.exists_reaches
    have hc : r.current = .reserved word := by
      generalize r.current = token at he
      cases token <;> cases he
      rfl
    rw [Reader.place, hc] at hn
    exact ⟨_, s, hs, hn⟩
  | rejected _ hr => exact absurd rfl (hr.ne_reservedWord word)

theorem not_overtaken_reservedWord {s₀ : Source} {other : String} :
    ¬Overtaken s₀ other (.reservedWord word) r := by
  rintro ⟨_, _, _, _, hr⟩
  exact hr.ne_reservedWord word rfl

/-- If no other word has its signal, the signal of a word is raised exactly when the word is
reported or overlooked. -/
theorem mem_raised_iff (h : statement r = .error e r') (hraised : r.source.raised = [])
    (hword : r.source.reserved.lookup word = some signal)
    (hother : ∀ other, r.source.reserved.lookup other = some signal → other = word) :
    signal ∈ r'.source.raised ↔ e = .reservedWord word ∨ Overtaken r.source word e r' := by
  have hended := ended_statement r
  rw [h] at hended
  constructor
  · intro hm
    rcases hended.raised with ⟨hnone, -⟩ | ⟨other, signal', hlookup, hone, he⟩
    · rw [hnone, hraised] at hm
      cases hm
    · rw [hone, hraised] at hm
      obtain rfl : signal = signal' := by simpa using hm
      obtain rfl := hother other hlookup
      exact he.imp id And.left
  · rintro (rfl | ⟨hc, token, tokens, hl, -⟩)
    · rcases hended.raised with ⟨-, hne⟩ | ⟨other, signal', hlookup, hone, he | ⟨-, hne⟩⟩
      · exact absurd rfl (hne word)
      · cases he
        rw [hword] at hlookup
        cases hlookup
        simp [hone]
      · exact absurd rfl (hne word)
    · obtain ⟨signal', hlookup, hone⟩ := hl.raised_of_reserved hc
      rw [hword] at hlookup
      cases hlookup
      change r'.source.raised = _ at hone
      simp [hone]

theorem statement_of_endOfInput (h : r.source.next.1 = .ok .endOfInput) :
    ∃ r', statement r = .ok none r' := by
  let r₁ : Reader := { r with source := r.source.next.2, current := .endOfInput }
  have ha : advance r = .ok () r₁ := by
    rw [advance]
    simp only [h, r₁]
  have hfirst : firstToken r.source.room r = .ok .endOfInput r₁ :=
    (firstToken_of_advance ha).trans (if_neg (by simp [r₁]))
  refine ⟨r₁, ?_⟩
  rw [statement, room_bind, bind_of_ok hfirst]
  rfl

/-- What leads past the next token of a text that is not at an end takes a character at least. -/
theorem length_lt_of_leads {tokens : List Token} (hl : r.source.Leads tokens r'.place)
    (hend : r.source.next.1 ≠ .ok .endOfInput) :
    r'.source.input.length < r.source.input.length := by
  obtain ⟨hle, hlt⟩ := hl.length_le
  change tokens.length + r'.source.input.length ≤ _ at hle
  cases tokens with
  | nil =>
    cases hl with
    | first hn =>
      have hc : r'.current ≠ .endOfInput := by
        intro hc
        exact hend (by rw [hn, ← hc]; rfl)
      have := hlt hc
      simp only [List.length_nil, Nat.zero_add, Reader.place] at this
      omega
  | cons token tokens =>
    rw [List.length_cons] at hle
    omega

theorem Fault.length_lt (h : Fault r.source e r') (hend : r.source.next.1 ≠ .ok .endOfInput) :
    r'.source.input.length < r.source.input.length := by
  cases h with
  | @unread tokens s hr hn =>
    have hread := Source.read_of_next hn
    have hs : s.input ≠ [] := by
      intro hs
      rw [hs] at hread
      cases hread
    have hlt := Token.length_read_lt s.isReserved s.input hs
    rw [hread] at hlt
    cases hr with
    | start => exact hlt
    | behind hl _ => exact Nat.lt_of_lt_of_le hlt (Nat.le_of_add_left_le hl.length_le.1)
  | refused wanted hl _ => exact length_lt_of_leads hl hend
  | rejected hl _ => exact length_lt_of_leads hl hend

/-- A statement that is no end of the text takes a character at least. -/
theorem length_statement_lt (r : Reader) :
    (∀ c r', statement r = .ok (some c) r' →
        r'.source.input.length < r.source.input.length) ∧
      ∀ e r', statement r = .error e r' → r'.source.input.length < r.source.input.length := by
  have hended := ended_statement r
  constructor
  · intro c r' h
    rw [h] at hended
    obtain ⟨⟨tokens, hl⟩, -⟩ := hended
    refine length_lt_of_leads hl fun hend => ?_
    obtain ⟨r₁, h₁⟩ := statement_of_endOfInput hend
    cases h.symm.trans h₁
  · intro e r' h
    rw [h] at hended
    refine hended.length_lt fun hend => ?_
    obtain ⟨r₁, h₁⟩ := statement_of_endOfInput hend
    cases h.symm.trans h₁

end Read

namespace Session

/-- The turns from the first session on to another one. Each of them is listed as the session that
takes it, the last one first. -/
inductive After (first : Session) : List Session → Session → Prop
  | start : After first [] first
  | turn {passed : List Session} {s next : Session} {output : String} :
      After first passed s → s.turn = .next output next → After first (s :: passed) next

/-- The next statement reads the word, but reports what stands in front of it. -/
def Overlooks (s : Session) (word : String) : Prop :=
  ∃ e r', Read.statement s.reader = .error e r' ∧ Read.Overtaken s.reader.source word e r'

/-- What holds after these turns. -/
structure Attends (passed : List Session) (s : Session) : Prop where
  reserved : s.reader.source.reserved = [("exit", "exit"), ("?", "help")]
  raised : s.reader.source.raised = []
  exit : s.exitRequested = true ↔ ∃ earlier ∈ passed, earlier.Overlooks "exit"

variable {passed : List Session} {s next : Session} {output word signal : String} {e : Error}

theorem read_of_ok {c? : Option Command} {r' : Reader} (h : Read.statement s.reader = .ok c? r') :
    s.read = (.ok c?, s.follow r') := by
  rw [read, h]

theorem read_of_error {r' : Reader} (h : Read.statement s.reader = .error e r') :
    s.read = (.error e, s.follow r') := by
  rw [read, h]

theorem exists_of_read (h : s.read.1 = .error e) :
    ∃ r', Read.statement s.reader = .error e r' ∧ s.read.2 = s.follow r' := by
  cases hs : Read.statement s.reader with
  | ok c? r' => simp [read_of_ok hs] at h
  | error e' r' =>
    rw [read_of_error hs] at h ⊢
    cases h
    exact ⟨r', rfl, rfl⟩

namespace Attends

theorem start (input : List Char) (budget patience : Nat) :
    Attends [] (Session.start input budget patience) :=
  ⟨rfl, rfl, by simp [Session.start]⟩

theorem lookup_eq_some_iff (h : Attends passed s) :
    s.reader.source.reserved.lookup word = some signal ↔
      (word = "exit" ∧ signal = "exit") ∨ (word = "?" ∧ signal = "help") := by
  rw [h.reserved, List.lookup_cons]
  by_cases hexit : word = "exit"
  · simp [hexit, eq_comm]
  · rw [beq_eq_false_iff_ne.mpr hexit, List.lookup_cons]
    by_cases hhelp : word = "?"
    · simp [hhelp, eq_comm]
    · rw [beq_eq_false_iff_ne.mpr hhelp]
      simp [hexit, hhelp]

theorem eq_of_reported (h : Attends passed s) (hread : s.read.1 = .error (.reservedWord word)) :
    word = "exit" ∨ word = "?" := by
  obtain ⟨r', hs, -⟩ := exists_of_read hread
  have hended := Read.ended_statement s.reader
  rw [hs] at hended
  rcases hended.raised with ⟨-, hne⟩ | ⟨other, signal, hlookup, -, he | ⟨-, hne⟩⟩
  · exact absurd rfl (hne word)
  · cases he
    exact (h.lookup_eq_some_iff.mp hlookup).imp And.left And.left
  · exact absurd rfl (hne word)

theorem mem_raised_iff {r' : Reader} (h : Attends passed s)
    (hs : Read.statement s.reader = .error e r')
    (hword : s.reader.source.reserved.lookup word = some signal) :
    r'.source.raised.contains signal = true ↔
      e = .reservedWord word ∨ Read.Overtaken s.reader.source word e r' := by
  rw [List.contains_iff_mem]
  refine Read.mem_raised_iff hs h.raised hword fun other hother => ?_
  rcases h.lookup_eq_some_iff.mp hword with ⟨rfl, rfl⟩ | ⟨rfl, rfl⟩
  · simpa using h.lookup_eq_some_iff.mp hother
  · simpa using h.lookup_eq_some_iff.mp hother

/-- Reading opens the request to leave when it reports `exit` or overlooks it. -/
theorem exit_read (h : Attends passed s) :
    s.read.2.exitRequested = true ↔
      s.read.1 = .error (.reservedWord "exit") ∨
        ∃ earlier ∈ s :: passed, earlier.Overlooks "exit" := by
  simp only [List.exists_mem_cons_iff, ← h.exit]
  cases hs : Read.statement s.reader with
  | ok c? r' =>
    have hraised : r'.source.raised = [] := by
      have hended := Read.ended_statement s.reader
      rw [hs] at hended
      obtain ⟨⟨tokens, hl⟩, hc⟩ := hended
      exact (hl.raised_of_ne_reserved hc).trans h.raised
    have hover : ¬s.Overlooks "exit" := by
      rintro ⟨e, r₁, he, -⟩
      rw [hs] at he
      cases he
    simp [read_of_ok hs, follow, hraised, hover]
  | error e r' =>
    have hover : s.Overlooks "exit" ↔ Read.Overtaken s.reader.source "exit" e r' := by
      constructor
      · rintro ⟨e₁, r₁, he, hover⟩
        rw [hs] at he
        cases he
        exact hover
      · exact fun hover => ⟨e, r', hs, hover⟩
    have hiff := h.mem_raised_iff hs (h.lookup_eq_some_iff.mpr (.inl ⟨rfl, rfl⟩))
    rw [read_of_error hs, hover]
    simp only [follow, Bool.or_eq_true, hiff, Except.error.injEq]
    tauto

/-- A request for help is open when it is reported. -/
theorem help_read (h : Attends passed s) (hread : s.read.1 = .error (.reservedWord "?")) :
    s.read.2.helpRequested = true := by
  obtain ⟨r', hs, hfollow⟩ := exists_of_read hread
  have hhelp : r'.source.raised.contains "help" = true :=
    (h.mem_raised_iff hs (h.lookup_eq_some_iff.mpr (.inr ⟨rfl, rfl⟩))).mpr (.inl rfl)
  rw [hfollow, follow, hhelp, Bool.or_true]

/-- Reading keeps the reserved words and takes all signals away. -/
theorem source_read (h : Attends passed s) :
    s.read.2.reader.source.reserved = [("exit", "exit"), ("?", "help")] ∧
      s.read.2.reader.source.raised = [] := by
  have hended := Read.ended_statement s.reader
  cases hs : Read.statement s.reader with
  | ok c? r' =>
    rw [hs] at hended
    obtain ⟨⟨tokens, hl⟩, -⟩ := hended
    rw [read_of_ok hs]
    exact ⟨hl.raised.1.trans h.reserved, rfl⟩
  | error e r' =>
    rw [hs] at hended
    rw [read_of_error hs]
    refine ⟨?_, rfl⟩
    cases hended with
    | unread hr hn => exact ((Source.raised_of_next hn).1.trans hr.raised.1).trans h.reserved
    | refused _ hl _ => exact hl.raised.1.trans h.reserved
    | rejected hl _ => exact hl.raised.1.trans h.reserved

end Attends

theorem turn_of_reported (hread : s.read.1 = .error (.reservedWord word)) :
    s.turn =
      if s.read.2.exitRequested then .stop "" .exit
      else if s.read.2.helpRequested then
        .next s.read.2.help { s.read.2.skipLine with helpRequested := false }
      else .next "" s.read.2.skipLine := by
  rw [turn, hread]
  rfl

/-- The two ways out of a session. -/
theorem turn_eq_stop_iff {ending : Ending} :
    s.turn = .stop output ending ↔
      s.read.1 = .ok none ∧ output = "\n" ∧ ending = .endOfInput ∨
        ∃ word, s.read.1 = .error (.reservedWord word) ∧ s.read.2.exitRequested = true ∧
          output = "" ∧ ending = .exit := by
  cases hread : s.read.1 with
  | ok c? =>
    cases c? with
    | none =>
      have hturn : s.turn = .stop "\n" .endOfInput := by
        rw [turn, hread]
        rfl
      rw [hturn]
      constructor
      · rintro ⟨⟩
        exact .inl ⟨rfl, rfl, rfl⟩
      · rintro (⟨-, rfl, rfl⟩ | ⟨word, he, -⟩)
        · rfl
        · cases he
    | some c =>
      simp only [turn, hread, respond, perform]
      split <;> simp
  | error e =>
    cases e with
    | reservedWord word =>
      rw [turn_of_reported hread]
      constructor
      · intro h
        split at h
        · next hexit =>
          cases h
          exact .inr ⟨word, rfl, hexit, rfl, rfl⟩
        · split at h <;> cases h
      · rintro (⟨he, -⟩ | ⟨_, -, hexit, rfl, rfl⟩)
        · cases he
        · exact if_pos hexit
    | _ => simp [turn, hread, respond]

/-- At a reserved word the request to leave is open if the word is `exit`, or if an earlier
statement has overlooked it. The statement that reports a reserved word overlooks none. -/
theorem Attends.exit_read_of_reported (h : Attends passed s)
    (hread : s.read.1 = .error (.reservedWord word)) :
    s.read.2.exitRequested = true ↔
      word = "exit" ∨ ∃ earlier ∈ passed, earlier.Overlooks "exit" := by
  have hover : ¬s.Overlooks "exit" := by
    rintro ⟨e, r', hs, hover⟩
    rw [read_of_error hs] at hread
    cases hread
    exact Read.not_overtaken_reservedWord hover
  rw [h.exit_read, List.exists_mem_cons_iff, or_iff_right hover, hread]
  simp

/-- A request for help is answered if no earlier statement has overlooked `exit`. -/
theorem Attends.turn_of_help (h : Attends passed s) (hread : s.read.1 = .error (.reservedWord "?"))
    (hnone : ∀ earlier ∈ passed, ¬earlier.Overlooks "exit") :
    ∃ tokens stands behind next, s.reader.source.Reaches tokens stands ∧
      stands.next = (.ok (.reserved "?"), behind) ∧
      s.turn = .next s.read.2.help next ∧ next.reader.source.input = stands.below := by
  obtain ⟨r', hs, hfollow⟩ := exists_of_read hread
  have hended := Read.ended_statement s.reader
  rw [hs] at hended
  obtain ⟨tokens, stands, hreaches, hstands⟩ := hended.reported
  have hrequested : s.read.2.exitRequested = false := by
    rw [← Bool.not_eq_true, h.exit_read_of_reported hread]
    rintro (hword | ⟨earlier, hmem, hearlier⟩)
    · simp at hword
    · exact hnone earlier hmem hearlier
  have hturn := turn_of_reported hread
  rw [if_neg (by simp [hrequested]), if_pos (h.help_read hread)] at hturn
  refine ⟨tokens, stands, _, _, hreaches, hstands, hturn, ?_⟩
  rw [hfollow]
  change afterLine r'.source.input = _
  exact Source.afterLine_of_next hstands

/-- A turn that leads on keeps the request to leave and takes from the text only. -/
theorem of_turn_eq_next (h : s.turn = .next output next) :
    s.read.1 ≠ .ok none ∧ next.exitRequested = s.read.2.exitRequested ∧
      next.reader.source.reserved = s.read.2.reader.source.reserved ∧
      next.reader.source.raised = s.read.2.reader.source.raised ∧
      next.reader.source.input.length ≤ s.read.2.reader.source.input.length := by
  have hskip := length_afterLine_le s.read.2.reader.source.input
  cases hread : s.read.1 with
  | ok c? =>
    cases c? with
    | none => simp [turn, hread, respond] at h
    | some c =>
      simp only [turn, hread, respond, perform] at h
      split at h
      · cases h
        exact ⟨by simp, rfl, rfl, rfl, Nat.le_refl _⟩
      · cases h
        exact ⟨by simp, rfl, rfl, rfl, Nat.le_refl _⟩
  | error e =>
    refine ⟨by simp, ?_⟩
    cases e with
    | reservedWord word =>
      rw [turn_of_reported hread] at h
      split at h
      · cases h
      · split at h
        · cases h
          exact ⟨rfl, rfl, rfl, hskip⟩
        · cases h
          exact ⟨rfl, rfl, rfl, hskip⟩
    | _ =>
      simp only [turn, hread, respond] at h
      cases h
      exact ⟨rfl, rfl, rfl, hskip⟩

/-- A session that goes on has not reported `exit`. -/
theorem Attends.of_turn (h : Attends passed s) (ht : s.turn = .next output next) :
    Attends (s :: passed) next := by
  obtain ⟨-, hexit, hreserved, hraised, -⟩ := of_turn_eq_next ht
  refine ⟨hreserved.trans h.source_read.1, hraised.trans h.source_read.2, ?_⟩
  rw [hexit, h.exit_read, or_iff_right]
  intro hread
  have hstop := turn_eq_stop_iff.mpr (.inr ⟨_, hread, h.exit_read.mpr (.inl hread), rfl, rfl⟩)
  rw [ht] at hstop
  cases hstop

theorem After.attends {input : List Char} {budget patience : Nat}
    (h : (Session.start input budget patience).After passed s) : Attends passed s := by
  induction h with
  | start => exact .start input budget patience
  | turn _ ht ih => exact ih.of_turn ht

/-- A turn takes a character at least if it leads on. -/
theorem length_lt_of_turn (h : s.turn = .next output next) :
    next.reader.source.input.length < s.reader.source.input.length := by
  obtain ⟨hread, -, -, -, hle⟩ := of_turn_eq_next h
  obtain ⟨hok, herror⟩ := Read.length_statement_lt s.reader
  refine Nat.lt_of_le_of_lt hle ?_
  cases hs : Read.statement s.reader with
  | error e r' =>
    rw [read_of_error hs]
    exact herror e r' hs
  | ok c? r' =>
    rw [read_of_ok hs] at hread ⊢
    cases c? with
    | none => exact absurd rfl hread
    | some c => exact hok c r' hs

theorem After.of_turn {last : Session} (ht : s.turn = .next output next)
    (h : next.After passed last) : s.After (passed ++ [s]) last := by
  induction h with
  | start => exact .turn .start ht
  | turn _ ht' ih => exact .turn ih ht'

theorem turns_of_next {n : Nat} (h : s.turn = .next output next) :
    turns (n + 1) s = ((prompt ++ output) :: (turns n next).1, (turns n next).2) := by
  rw [turns, h]

/-- What the next turn writes. -/
def answer (s : Session) : String :=
  match s.turn with
  | .next output _ => output
  | .stop output _ => output

/-- Enough turns lead to one that leaves the session. -/
theorem exists_stop_of_turns {n : Nat} (hn : s.reader.source.input.length < n) :
    ∃ passed last, s.After passed last ∧ last.turn = .stop last.answer (turns n s).2 ∧
      (turns n s).1 = ((last :: passed).map fun s => prompt ++ s.answer).reverse := by
  induction n generalizing s with
  | zero => exact absurd hn (Nat.not_lt_zero _)
  | succ n ih =>
    cases ht : s.turn with
    | stop output ending =>
      refine ⟨[], s, .start, ?_, ?_⟩
      · simp [answer, turns, ht]
      · simp [answer, turns, ht]
    | next output next =>
      have hlt := length_lt_of_turn ht
      obtain ⟨passed, last, hafter, hstop, houtputs⟩ := ih (s := next) (by omega)
      refine ⟨passed ++ [s], last, hafter.of_turn ht, ?_, ?_⟩
      · simpa [turns, ht] using hstop
      · simp [turns, ht, houtputs, answer]

/-- A run writes what its turns answer, and its last turn leaves the session. -/
theorem exists_stop_of_run (input : List Char) (budget patience : Nat) :
    ∃ passed last, (start input budget patience).After passed last ∧
      last.turn = .stop last.answer (run input budget patience).2 ∧
      (run input budget patience).1 =
        String.join ((last :: passed).map fun s => prompt ++ s.answer).reverse := by
  have hlt : (start input budget patience).reader.source.input.length < input.length + 1 :=
    Nat.lt_succ_self _
  obtain ⟨passed, last, hafter, hstop, houtputs⟩ := exists_stop_of_turns hlt
  exact ⟨passed, last, hafter, hstop, congrArg String.join houtputs⟩

/-- When a session is left. It is left at the end of its text, at `exit`, and at a request for help
if an earlier statement has overlooked `exit`. Without such a statement a request for help is
answered, and the session goes on below its line. -/
theorem turn_of_after {input : List Char} {budget patience : Nat}
    (h : (start input budget patience).After passed s) :
    (∀ output ending, s.turn = .stop output ending ↔
      s.read.1 = .ok none ∧ output = "\n" ∧ ending = .endOfInput ∨
        (s.read.1 = .error (.reservedWord "exit") ∨
          s.read.1 = .error (.reservedWord "?") ∧
            ∃ earlier ∈ passed, earlier.Overlooks "exit") ∧
          output = "" ∧ ending = .exit) ∧
      (s.read.1 = .error (.reservedWord "?") →
        (∀ earlier ∈ passed, ¬earlier.Overlooks "exit") →
          ∃ tokens stands behind next, s.reader.source.Reaches tokens stands ∧
            stands.next = (.ok (.reserved "?"), behind) ∧
            s.turn = .next s.read.2.help next ∧ next.reader.source.input = stands.below) := by
  have hattends := h.attends
  refine ⟨fun output ending => ?_, hattends.turn_of_help⟩
  rw [turn_eq_stop_iff]
  refine or_congr_right ⟨?_, ?_⟩
  · rintro ⟨word, hread, hrequested, hending⟩
    have hwhy := (hattends.exit_read_of_reported hread).mp hrequested
    refine ⟨?_, hending⟩
    rcases hattends.eq_of_reported hread with rfl | rfl
    · exact .inl hread
    · exact .inr ⟨hread, hwhy.resolve_left (by simp)⟩
  · rintro ⟨hread | ⟨hread, hearlier⟩, hending⟩
    · exact ⟨_, hread, (hattends.exit_read_of_reported hread).mpr (.inl rfl), hending⟩
    · exact ⟨_, hread, (hattends.exit_read_of_reported hread).mpr (.inr hearlier), hending⟩

/-- A session in which a request to leave is overlooked, and help is asked for on the next line. -/
def overlookedExit : Session := start "Foo exit;\n?\nx;\n".toList 0 0

/-- That session after its first turn. The request to leave is open. -/
def overlookedExitNext : Session :=
  { overlookedExit with
    reader := { overlookedExit.reader with
      source := { overlookedExit.reader.source with input := "?\nx;\n".toList }
      current := .reserved "exit" }
    exitRequested := true }

theorem after_overlookedExit : overlookedExit.After [overlookedExit] overlookedExitNext := by
  have ht : overlookedExit.turn =
      .next ((Error.undefinedName "Foo").message ++ "\n") overlookedExitNext := by
    decide +kernel
  exact .turn .start ht

theorem stop_overlookedExitNext :
    overlookedExitNext.read.1 = .error (.reservedWord "?") ∧
      overlookedExitNext.turn = .stop "" .exit := by
  decide +kernel

theorem turn_of_after_overlookedExit :
    overlookedExit.After [overlookedExit] overlookedExitNext ∧
      overlookedExitNext.read.1 = .error (.reservedWord "?") ∧
      overlookedExitNext.turn = .stop "" .exit ∧ overlookedExit.Overlooks "exit" := by
  obtain ⟨hread, hstop⟩ := stop_overlookedExitNext
  refine ⟨after_overlookedExit, hread, hstop, ?_⟩
  have hwhy := ((turn_of_after after_overlookedExit).1 _ _).mp hstop
  rcases hwhy with ⟨hend, -⟩ | ⟨hexit | ⟨-, hearlier⟩, -⟩
  · rw [hread] at hend
    cases hend
  · rw [hread] at hexit
    simp at hexit
  · simpa using hearlier

/-- A session can be left at a request for help. -/
theorem not_exit_of_stop :
    ¬∀ (input : List Char) (budget patience : Nat) (passed : List Session) (s : Session)
      (output : String) (ending : Ending), (start input budget patience).After passed s →
        s.turn = .stop output ending →
          s.read.1 = .ok none ∨ s.read.1 = .error (.reservedWord "exit") := by
  intro h
  obtain ⟨hread, hstop⟩ := stop_overlookedExitNext
  have hwhy := h "Foo exit;\n?\nx;\n".toList 0 0 _ _ _ _ after_overlookedExit hstop
  rw [hread] at hwhy
  simp at hwhy

end Session

end LambdaCalc
