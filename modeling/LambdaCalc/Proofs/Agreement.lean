import LambdaCalc.CommandLine
import LambdaCalc.Proofs.Boundary
import LambdaCalc.Proofs.Leaving
import LambdaCalc.Proofs.LineEnds
import LambdaCalc.Proofs.Lockstep
import LambdaCalc.Proofs.Reserving

namespace LambdaCalc

/-- None of the tokens that can be cut off the text is the word `exit` or stands at `?`. A reader
without reserved words takes the one for an identifier and the other for no token at all. -/
def Unasked (text : List Char) : Prop :=
  ∀ tokens rest, Cut (fun _ => false) text tokens rest →
    (Token.read (fun _ => false) rest).1 ≠ .ok (.identifier "exit") ∧
      (Token.read (fun _ => false) rest).1 ≠ .error (.unrecognized '?')

theorem unasked_iff {text rest : List Char} {found : Except Error Token}
    (h : Token.read (fun _ => false) text = (found, rest)) :
    Unasked text ↔ found ≠ .ok (.identifier "exit") ∧ found ≠ .error (.unrecognized '?') ∧
      ∀ token, found = .ok token → token ≠ .endOfInput → Unasked rest := by
  constructor
  · intro hu
    have hhere := hu [] text (.nil text)
    rw [h] at hhere
    refine ⟨hhere.1, hhere.2, ?_⟩
    rintro token rfl hne tokens rest' hc
    exact hu (token :: tokens) rest' (.cons h hne hc)
  · rintro ⟨hexit, hhelp, hrest⟩ tokens rest' hc
    cases tokens with
    | nil =>
      cases hc
      rw [h]
      exact ⟨hexit, hhelp⟩
    | cons token tokens =>
      obtain ⟨behind, hr, hne, hc⟩ := Cut.cons_iff.mp hc
      cases h.symm.trans hr
      exact hrest token rfl hne tokens rest' hc

/-- Looks at the tokens of a text one after the other, at most as many as asked. -/
def unaskedWithin : Nat → List Char → Bool
  | 0, _ => false
  | n + 1, text =>
    let found := Token.read (fun _ => false) text
    match found.1 with
    | .ok .endOfInput => true
    | .ok token => decide (token ≠ .identifier "exit") && unaskedWithin n found.2
    | .error e => decide (e ≠ .unrecognized '?')

theorem unasked_iff_within {n : Nat} {text : List Char} (hn : text.length < n) :
    Unasked text ↔ unaskedWithin n text = true := by
  induction n generalizing text with
  | zero => exact absurd hn (Nat.not_lt_zero _)
  | succ n ih =>
    cases hr : Token.read (fun _ => false) text with
    | mk found rest =>
      rw [unasked_iff hr, unaskedWithin, hr]
      cases found with
      | error e => simp
      | ok token =>
        by_cases hend : token = .endOfInput
        · subst hend
          simp
        · have hlt := Token.length_lt_of_read hr hend
          have hrest : Unasked rest ↔ unaskedWithin n rest = true := ih (by omega)
          simp only [Except.ok.injEq, forall_eq', hrest]
          cases token <;> simp at hend ⊢

instance : DecidablePred Unasked := fun text =>
  decidable_of_iff _ (unasked_iff_within (Nat.lt_succ_self text.length)).symm

namespace Source

variable {s s' s₀ s₀' : Source} {tokens : List Token} {token : Token} {p p' : Place}

/-- The first source reads a text as it stands. The second one reads it for a session, put together
again from its lines. -/
structure Alongside (s s' : Source) : Prop where
  plain : s.reserved = []
  reserved : s'.reserved = [("exit", "exit"), ("?", "help")]
  rejoined : Rejoined s.input s'.input
  unasked : Unasked s.input

theorem Reaches.of_cons (h : s₀.Reaches (token :: tokens) s) :
    token.stops = false ∧ ∃ s₁, s₀.Reaches tokens s₁ ∧ s₁.next = (.ok token, s) := by
  cases h with
  | behind hl hs => exact ⟨hs, hl.exists_reaches⟩

namespace Alongside

theorem isReserved_eq (h : Alongside s s') : s.isReserved = fun _ => false := by
  funext word
  rw [isReserved, h.plain]
  rfl

theorem eq_of_isReserved (h : Alongside s s') {word : String} (hw : s'.isReserved word = true) :
    word = "exit" ∨ word = "?" := by
  by_contra hne
  rw [not_or] at hne
  rw [isReserved, h.reserved] at hw
  simp [List.lookup_cons, beq_eq_false_iff_ne.mpr hne.1, beq_eq_false_iff_ne.mpr hne.2] at hw

theorem read_eq (h : Alongside s s') :
    Token.read s'.isReserved s'.input = Token.read (fun _ => false) s'.input := by
  obtain ⟨hexit, hhelp⟩ := h.unasked [] s.input (.nil s.input)
  rw [← h.rejoined.read.1, Token.read] at hexit hhelp
  rw [Token.read, Token.read]
  split
  · rfl
  · next c cs hs =>
    rw [hs] at hexit hhelp
    have hc : c ≠ '?' := by
      rintro rfl
      exact hhelp rfl
    -- the reader looks up the first character of the token, and then a lowercase word
    have hchar : s'.isReserved c.toString = false := by
      rw [← Bool.not_eq_true]
      intro hw
      rcases h.eq_of_isReserved hw with he | he
      · simpa using congrArg String.toList he
      · exact hc (by simpa using congrArg String.toList he)
    refine Token.readFrom_congr hchar fun _ hlower => ?_
    rw [← Bool.not_eq_true]
    intro hw
    rcases h.eq_of_isReserved hw with he | he
    · refine hexit ?_
      rw [lexeme_of_isLower hlower] at he
      change (Token.readFrom (fun _ => false) c cs).1 = _
      rw [Token.readFrom, if_neg Bool.false_ne_true, if_pos hlower]
      exact congrArg (fun word => Except.ok (Token.ofLowercase (fun _ => false) word)) he
    · have hfirst := head?_lexeme c cs
      rw [he] at hfirst
      exact hc (by simpa using hfirst.symm)

/-- Both sources hand out the same token, and are alongside each other behind it. -/
theorem next (h : Alongside s s') :
    s'.next.1 = s.next.1 ∧
      ∀ token, s.next.1 = .ok token → token ≠ .endOfInput → Alongside s.next.2 s'.next.2 := by
  have hread := @Rejoined.read _ _ (fun _ => false) h.rejoined
  rw [← h.read_eq, ← h.isReserved_eq] at hread
  obtain ⟨hfound, hrest⟩ := hread
  refine ⟨hfound, fun token hn hne => ⟨h.plain, h.reserved, hrest, ?_⟩⟩
  have hu := (unasked_iff (Prod.eta _).symm).mp h.unasked
  rw [← h.isReserved_eq] at hu
  exact hu.2.2 token hn hne

theorem reaches (h : Alongside s₀ s₀') (hr : s₀.Reaches tokens s) (hr' : s₀'.Reaches tokens s') :
    Alongside s s' := by
  induction tokens generalizing s s' with
  | nil =>
    cases hr
    cases hr'
    exact h
  | cons token tokens ih =>
    obtain ⟨hs, s₁, hr₁, hn⟩ := hr.of_cons
    obtain ⟨-, s₁', hr₁', hn'⟩ := hr'.of_cons
    have hend : token ≠ .endOfInput := by
      rintro rfl
      cases hs
    have hnext := (ih hr₁ hr₁').next.2 token (by rw [hn]) hend
    rwa [hn, hn'] at hnext

theorem abreast (h : Alongside s₀ s₀') : s₀.Abreast s₀' :=
  fun _ _ _ hr hr' => (h.reaches hr hr').next.1

theorem leads (h : Alongside s₀ s₀') (hl : s₀.Leads tokens p) (hl' : s₀'.Leads tokens p')
    (hend : p.current ≠ .endOfInput) : Alongside p.source p'.source := by
  obtain ⟨s, hr, hn⟩ := hl.exists_reaches
  obtain ⟨s', hr', hn'⟩ := hl'.exists_reaches
  have hnext := (h.reaches hr hr').next.2 p.current (by rw [hn]) hend
  rwa [hn, hn'] at hnext

end Alongside

end Source

namespace Read

variable {r r' : Reader} {e : Error}

/-- A reader that has reserved no word reports none. -/
theorem ne_reservedWord_of_statement (h : statement r = .error e r')
    (hplain : r.source.reserved = []) (word : String) : e ≠ .reservedWord word := by
  have hended := ended_statement r
  rw [h] at hended
  rcases hended.raised with ⟨-, hne⟩ | ⟨other, signal, hlookup, -⟩
  · exact hne word
  · rw [hplain] at hlookup
    cases hlookup

/-- The outcomes of the statements in front of the first one that fails, at most as many as asked,
and the error of that one. -/
def results : Nat → Reader → List Term × Option Error
  | 0, _ => ([], some .unfinished)
  | n + 1, r =>
    match statement r with
    | .error e _ => ([], some e)
    | .ok none _ => ([], none)
    | .ok (some c) r' =>
      match c.execute r'.patience r'.supply with
      | .error e _ => ([], some e)
      | .ok t supply =>
        let later := results n { r' with supply := supply }
        (t :: later.1, later.2)

/-- A run answers all outcomes, or nothing but the first error. -/
theorem results_of_outcomes (n : Nat) (r : Reader) :
    (∀ terms r', outcomes n r = .ok terms r' → results n r = (terms, none)) ∧
      ∀ e r', outcomes n r = .error e r' → ∃ terms, results n r = (terms, some e) := by
  induction n generalizing r with
  | zero =>
    refine ⟨nofun, fun e r' h => ?_⟩
    cases h
    exact ⟨[], rfl⟩
  | succ n ih =>
    rw [results]
    constructor
    · intro terms r' h
      rcases outcomes_ok h with ⟨hs, rfl⟩ | ⟨c, r₁, t, supply, later, hs, he, ho, rfl⟩
      · simp only [hs]
      · simp only [hs, he, (ih _).1 later r' ho]
    · intro e r' h
      rcases outcomes_error h with hs | ⟨c, r₁, hs, ⟨supply, he⟩ | ⟨t, supply, he, ho⟩⟩
      · exact ⟨[], by simp only [hs]⟩
      · exact ⟨[], by simp only [hs, he]⟩
      · obtain ⟨later, hlater⟩ := (ih _).2 e r' ho
        exact ⟨t :: later, by simp only [hs, he, hlater]⟩

end Read

/-- The outcomes of the statements of a text in front of the first one that fails, and the error of
that one. -/
def Script.results (text : List Char) (budget patience : Nat) : List Term × Option Error :=
  Read.results (text.length + 1)
    { source := { input := text }, budget := budget, patience := patience }

theorem Script.results_of_run (text : List Char) (budget patience : Nat) :
    (∀ terms, run text budget patience = .ok terms →
        results text budget patience = (terms, none)) ∧
      ∀ e, run text budget patience = .error e →
        ∃ terms, results text budget patience = (terms, some e) := by
  obtain ⟨hok, herror⟩ := Read.results_of_outcomes (text.length + 1)
    { source := { input := text }, budget := budget, patience := patience }
  rw [run]
  split
  · next terms r' ho =>
    refine ⟨fun _ h => ?_, nofun⟩
    cases h
    exact hok terms r' ho
  · next e r' ho =>
    refine ⟨nofun, fun _ h => ?_⟩
    cases h
    exact herror e r' ho

namespace Session

variable {s : Session} {r r' : Reader} {e : Error} {c : Command}

/-- The session stands where the script does. -/
structure Accompanies (s : Session) (r : Reader) : Prop where
  same : s.reader = { r with source := s.reader.source }
  alongside : r.source.Alongside s.reader.source

namespace Accompanies

theorem together (h : s.Accompanies r) :
    Read.Together r.source s.reader.source 0 (Read.statement r) (Read.statement s.reader) :=
  Read.together_statement h.alongside.abreast h.same

theorem turn_of_end (h : s.Accompanies r) (hs : Read.statement r = .ok none r') :
    s.turn = .stop "\n" .endOfInput := by
  rcases h.together.cases with ⟨c?, r₁, r₁', tokens, hs₁, hs', -⟩ | ⟨e, r₁, r₁', hs₁, -⟩
  · cases hs.symm.trans hs₁
    rw [turn, read_of_ok hs']
    rfl
  · cases hs.symm.trans hs₁

theorem turn_of_fault (h : s.Accompanies r) (hs : Read.statement r = .error e r') :
    ∃ next, s.turn = .next (e.message ++ "\n") next := by
  rcases h.together.cases with ⟨c?, r₁, r₁', tokens, hs₁, -⟩ | ⟨e₁, r₁, r₁', hs₁, hs'⟩
  · cases hs.symm.trans hs₁
  · cases hs.symm.trans hs₁
    rw [turn, read_of_error hs']
    exact ⟨_, respond_error _ (Read.ne_reservedWord_of_statement hs h.alongside.plain)⟩

theorem turn_of_command (h : s.Accompanies r) (hs : Read.statement r = .ok (some c) r') :
    ∃ s' : Session, s'.Accompanies r' ∧ s.turn = s'.perform c ∧
      s'.reader.source.input.length < s.reader.source.input.length := by
  rcases h.together.cases with ⟨c?, r₁, r₁', tokens, hs₁, hs', hl, -⟩ | ⟨e, r₁, r₁', hs₁, -⟩
  · cases hs.symm.trans hs₁
    -- the statement ends at its semicolon, where both sources are ready for the next one
    have hend : r'.current ≠ .endOfInput := by
      rw [(Read.semicolon_of_statement hs).1]
      nofun
    have hafter := h.alongside.leads hl.leads hl.leads' hend
    refine ⟨s.follow r₁', ⟨?_, ?_⟩, ?_, (Read.length_statement_lt s.reader).1 c r₁' hs'⟩
    · rw [follow, hl.same]
    · exact ⟨hafter.plain, hafter.reserved, hafter.rejoined, hafter.unasked⟩
    · rw [turn, read_of_ok hs']
      rfl
  · cases hs.symm.trans hs₁

theorem execute_eq (h : s.Accompanies r) (c : Command) :
    c.execute s.reader.patience s.reader.supply = c.execute r.patience r.supply := by
  rw [h.same]

theorem draw (h : s.Accompanies r) (supply : Supply) :
    Accompanies { s with reader := { s.reader with supply := supply } }
      { r with supply := supply } :=
  ⟨by rw [h.same], h.alongside⟩

end Accompanies

/-- What is written for a statement with this outcome. -/
def reply (t : Term) : String := prompt ++ (t.print ++ "\n")

/-- A session that is long enough answers the outcomes of the script, and then it is over or reports
the error of the script. -/
theorem turns_of_results {n m : Nat} {terms : List Term} {fault : Option Error}
    (h : s.Accompanies r) (hm : s.reader.source.input.length < m)
    (hresults : Read.results n r = (terms, fault)) (hends : fault ≠ some .unfinished) :
    (fault = none → turns m s = (terms.map reply ++ [prompt ++ "\n"], .endOfInput)) ∧
      ∀ e, fault = some e → ∃ later ending,
        turns m s = (terms.map reply ++ (prompt ++ (e.message ++ "\n")) :: later, ending) := by
  -- one statement of the script at a time; the session has turns left for the rest of them, since
  -- its text gets shorter with every statement
  induction n generalizing s r m terms with
  | zero =>
    cases hresults
    exact absurd rfl hends
  | succ n ih =>
    obtain ⟨m, rfl⟩ := Nat.exists_eq_add_one_of_ne_zero (Nat.ne_zero_of_lt hm)
    rw [Read.results] at hresults
    cases hs : Read.statement r with
    | error e r' =>
      obtain ⟨next, hturn⟩ := h.turn_of_fault hs
      rw [hs] at hresults
      cases hresults
      refine ⟨nofun, fun _ he => ?_⟩
      cases he
      exact ⟨_, _, turns_of_next hturn⟩
    | ok c? r' =>
      rw [hs] at hresults
      cases c? with
      | none =>
        cases hresults
        refine ⟨fun _ => ?_, nofun⟩
        rw [turns, h.turn_of_end hs]
        rfl
      | some c =>
        obtain ⟨s', hs', hturn, hlt⟩ := h.turn_of_command hs
        rw [perform, hs'.execute_eq] at hturn
        cases he : c.execute r'.patience r'.supply with
        | error e supply =>
          rw [he] at hturn
          simp only [he] at hresults
          cases hresults
          refine ⟨nofun, fun _ he => ?_⟩
          cases he
          exact ⟨_, _, turns_of_next hturn⟩
        | ok t supply =>
          rw [he] at hturn
          simp only [he, Prod.mk.injEq] at hresults
          obtain ⟨rfl, hfault⟩ := hresults
          have hless : s'.reader.source.input.length < m := by omega
          obtain ⟨hover, hlater⟩ := ih (hs'.draw supply) hless (Prod.ext rfl hfault)
          rw [turns_of_next hturn]
          refine ⟨fun hnone => ?_, fun e he => ?_⟩
          · rw [hover hnone]
            rfl
          · obtain ⟨later, ending, hlater⟩ := hlater e he
            refine ⟨later, ending, ?_⟩
            rw [hlater]
            rfl

/-- What is written for all the statements with these outcomes. -/
def replies (terms : List Term) : String := String.join (terms.map reply)

theorem join_replies (terms : List Term) (output : String) (later : List String) :
    String.join (terms.map reply ++ (prompt ++ output) :: later) =
      replies terms ++ prompt ++ output ++ String.join later := by
  rw [String.join_append, String.join_cons, replies, String.append_assoc, String.append_assoc,
    String.append_assoc]

theorem run_of_results {text input : List Char} {budget patience : Nat} {terms : List Term}
    {fault : Option Error} (hrejoined : Rejoined text input) (hunasked : Unasked text)
    (hresults : Script.results text budget patience = (terms, fault))
    (hends : fault ≠ some .unfinished) :
    (fault = none →
        run input budget patience = (replies terms ++ prompt ++ "\n", .endOfInput)) ∧
      ∀ e, fault = some e → ∃ rest,
        (run input budget patience).1 = replies terms ++ prompt ++ e.message ++ "\n" ++ rest := by
  have hstart : Accompanies (start input budget patience)
      { source := { input := text }, budget := budget, patience := patience } :=
    ⟨rfl, rfl, rfl, hrejoined, hunasked⟩
  obtain ⟨hover, hfault⟩ := turns_of_results hstart (Nat.lt_succ_self input.length) hresults hends
  constructor
  · intro hnone
    have hjoin := join_replies terms "\n" []
    rw [String.join_nil, String.append_empty] at hjoin
    rw [run, hover hnone, ← hjoin]
  · intro e he
    obtain ⟨later, ending, hlater⟩ := hfault e he
    refine ⟨String.join later, ?_⟩
    rw [run, hlater]
    exact (join_replies terms (e.message ++ "\n") later).trans (by simp only [String.append_assoc])

end Session

namespace CommandLine

open Session (prompt replies)

/-- A session as the program holds it, with any bound on unlimited work. -/
def holdSession (patience : Nat) (bytes : List UInt8) (budget : Nat) : String × Option Failure :=
  let lines := Text.Lines.read bytes
  let outcome := Session.run (Text.Lines.join lines.1) budget patience
  (outcome.1, sessionFailure lines.2 outcome.2)

theorem runSession_eq_holdSession : runSession = holdSession patience := rfl

/-- A session on the bytes of a text that asks neither for help nor to leave answers the outcomes of
the script line by line. If no statement fails it then ends without a failure of its own, and
otherwise it reports the error of the script next. -/
theorem session_of_script (text : String) (budget patience : Nat)
    (hunasked : Unasked text.toList)
    (hends : Script.run text.toList budget patience ≠ .error .unfinished) :
    (∀ terms, Script.run text.toList budget patience = .ok terms →
        holdSession patience text.toUTF8.data.toList budget =
          (replies terms ++ prompt ++ "\n", none)) ∧
      ∀ e, Script.run text.toList budget patience = .error e →
        ∃ terms rest, Script.results text.toList budget patience = (terms, some e) ∧
          (holdSession patience text.toUTF8.data.toList budget).1 =
            replies terms ++ prompt ++ e.message ++ "\n" ++ rest := by
  obtain ⟨hok, herror⟩ := Script.results_of_run text.toList budget patience
  obtain ⟨hcomplete, hrejoined⟩ := Text.Lines.rejoined_read text
  constructor
  · intro terms hrun
    have hover := (Session.run_of_results hrejoined hunasked (hok terms hrun) nofun).1 rfl
    rw [holdSession, hover, hcomplete]
    rfl
  · intro e hrun
    obtain ⟨terms, hresults⟩ := herror e hrun
    have hne : some e ≠ some .unfinished := by
      rintro ⟨⟩
      exact hends hrun
    obtain ⟨rest, hrest⟩ := (Session.run_of_results hrejoined hunasked hresults hne).2 e rfl
    exact ⟨terms, rest, hresults, hrest⟩

/-- A text with both kinds of line ends and none at its end. The words to which a session listens
stand in a comment. -/
def mixedLines : String := "x; # exit?\r\n(\\y . y) z 1>;\nx;"

/-- The same text with one more line, in which stands a name that nothing was assigned to. -/
def mixedLinesThenName : String := mixedLines ++ "\r\nK;"

theorem session_of_script_mixedLines :
    holdSession 3 mixedLines.toUTF8.data.toList 0 = (">> x\n>> z\n>> x\n>> \n", none) ∧
      ∃ rest, (holdSession 3 mixedLinesThenName.toUTF8.data.toList 0).1 =
        ">> x\n>> z\n>> x\n>> Error: unexpected syntax! Undefined symbol: K\n" ++ rest := by
  constructor
  · have hreplies : (Script.run mixedLines.toList 0 3).map replies =
        .ok ">> x\n>> z\n>> x\n" := by decide +kernel
    cases hrun : Script.run mixedLines.toList 0 3 with
    | error e =>
      rw [hrun] at hreplies
      cases hreplies
    | ok terms =>
      rw [hrun] at hreplies
      have hover := (session_of_script mixedLines 0 3 (by decide +kernel)
        (by rw [hrun]; nofun)).1 terms hrun
      rw [hover, Except.ok.inj hreplies]
      decide +kernel
  · have hrun : Script.run mixedLinesThenName.toList 0 3 = .error (.undefinedName "K") := by
      decide +kernel
    have hreplies : replies (Script.results mixedLinesThenName.toList 0 3).1 =
        ">> x\n>> z\n>> x\n" := by decide +kernel
    obtain ⟨terms, rest, hresults, hrest⟩ := (session_of_script mixedLinesThenName 0 3
      (by decide +kernel) (by rw [hrun]; nofun)).2 _ hrun
    rw [hresults] at hreplies
    refine ⟨rest, ?_⟩
    rw [hrest, hreplies]
    rfl

end CommandLine

end LambdaCalc
