import LambdaCalc.Proofs.Boundary
import LambdaCalc.Proofs.Leaving
import LambdaCalc.Proofs.LineEnds
import LambdaCalc.Proofs.Locality

namespace LambdaCalc

/-- A run of characters that ends in a text ends there whatever follows the text. -/
theorem run_append_of_rest {p : Char → Bool} {cs : List Char} (h : cs.dropWhile p ≠ [])
    (rest : List Char) : (cs ++ rest).takeWhile p = cs.takeWhile p ∧
      (cs ++ rest).dropWhile p = cs.dropWhile p ++ rest := by
  induction cs with
  | nil => exact absurd rfl h
  | cons c cs ih =>
    by_cases hc : p c = true
    · rw [List.dropWhile_cons_of_pos hc] at h
      simp [hc, ih h]
    · simp [hc]

theorem skipBlanks_append {input cs : List Char} {c : Char} (h : skipBlanks input = c :: cs)
    (rest : List Char) : skipBlanks (input ++ rest) = c :: (cs ++ rest) := by
  obtain ⟨front, rfl, hother⟩ := exists_passed.1 h
  obtain ⟨hblank, hhash⟩ := skip_head.1 h
  rw [List.append_assoc, hother, List.cons_append, skipBlanks, if_neg (by simp [hblank]),
    if_neg hhash]

namespace Token

variable {isReserved : String → Bool}

theorem ofDigits_append {digits : String} {cs : List Char} (h : cs ≠ []) (rest : List Char) :
    ofDigits digits (cs ++ rest) = ofDigits digits cs := by
  obtain ⟨c, cs, rfl⟩ := List.exists_cons_of_ne_nil h
  rfl

theorem readFrom_append_of_rest {c : Char} {cs : List Char}
    (h : (readFrom isReserved c cs).2 ≠ []) (rest : List Char) :
    readFrom isReserved c (cs ++ rest) =
      ((readFrom isReserved c cs).1, (readFrom isReserved c cs).2 ++ rest) := by
  unfold readFrom at h ⊢
  split at h
  · next hchar => rw [if_pos hchar, if_pos hchar]
  · next hchar =>
    rw [if_neg hchar, if_neg hchar]
    split at h
    · next hlower =>
      obtain ⟨htake, hdrop⟩ := run_append_of_rest h rest
      rw [if_pos hlower, if_pos hlower, htake, hdrop]
    · next hlower =>
      rw [if_neg hlower, if_neg hlower]
      split at h
      · next hupper =>
        obtain ⟨htake, hdrop⟩ := run_append_of_rest h rest
        rw [if_pos hupper, if_pos hupper, htake, hdrop]
      · next hupper =>
        rw [if_neg hupper, if_neg hupper]
        split at h
        · next hdigit =>
          obtain ⟨htake, hdrop⟩ := run_append_of_rest h rest
          rw [if_pos hdigit, if_pos hdigit, htake, hdrop, ofDigits_append h]
        · next hdigit =>
          rw [if_neg hdigit, if_neg hdigit]
          split <;> rfl

/-- A token behind which something is left is the same whatever follows the text. -/
theorem read_append_of_rest {input : List Char} (h : (read isReserved input).2 ≠ [])
    (rest : List Char) : read isReserved (input ++ rest) =
      ((read isReserved input).1, (read isReserved input).2 ++ rest) := by
  cases hskip : skipBlanks input with
  | nil =>
    rw [read, hskip] at h
    exact absurd rfl h
  | cons c cs =>
    rw [read, hskip] at h
    rw [read, read, skipBlanks_append hskip, hskip]
    exact readFrom_append_of_rest h rest

end Token

namespace Source

/-- The same source in front of another text. -/
def withInput (s : Source) (input : List Char) : Source := { s with input := input }

variable {s : Source} {n : Nat}

theorem next_withInput {input : List Char} (h : (Token.read s.isReserved input).1 = s.next.1) :
    (s.withInput input).next =
      (s.next.1, s.next.2.withInput (Token.read s.isReserved input).2) := by
  have hnext : (s.withInput input).next = ((Token.read s.isReserved input).1,
      { s with
        input := (Token.read s.isReserved input).2
        raised := s.raised ++ s.signals (Token.read s.isReserved input).1 }) := rfl
  rw [hnext, h]
  rfl

theorem input_after_suffix (n : Nat) (s : Source) : (s.after n).input <:+ s.input := by
  induction n generalizing s with
  | zero => exact List.suffix_refl _
  | succ n ih =>
    have hnext : s.next.2.input <:+ s.input :=
      (Token.suffix_of_read (Prod.eta _).symm).1.trans (skip_suffix s.input).1
    exact (ih s.next.2).trans hnext

/-- As long as something is left of the text, the tokens are the same whatever follows it. -/
theorem after_append (h : (s.after n).input ≠ []) (rest : List Char) :
    s.AgreeFor n (s.withInput (s.input ++ rest)) ∧
      (s.withInput (s.input ++ rest)).after n =
        (s.after n).withInput ((s.after n).input ++ rest) := by
  induction n generalizing s with
  | zero => exact ⟨trivial, rfl⟩
  | succ n ih =>
    have hleft : s.next.2.input ≠ [] := by
      intro hnil
      have hsuffix := input_after_suffix n s.next.2
      rw [hnil] at hsuffix
      exact h (List.suffix_nil.mp hsuffix)
    have hread : Token.read s.isReserved (s.input ++ rest) =
        (s.next.1, s.next.2.input ++ rest) := Token.read_append_of_rest hleft rest
    have hfound : (Token.read s.isReserved (s.input ++ rest)).1 = s.next.1 := by rw [hread]
    have hnext := next_withInput hfound
    rw [hread] at hnext
    obtain ⟨hagree, hafter⟩ := ih (s := s.next.2) h
    rw [AgreeFor, after, after, hnext]
    exact ⟨⟨rfl, hagree⟩, hafter⟩

/-- Behind the same number of tokens, texts that differ in their line ends still do so only. -/
theorem after_rejoined {a : List Char} (n : Nat) (h : Rejoined s.input a) :
    s.AgreeFor n (s.withInput a) ∧ ∃ b, (s.withInput a).after n = (s.after n).withInput b ∧
      Rejoined (s.after n).input b := by
  induction n generalizing s a with
  | zero => exact ⟨trivial, a, rfl, h⟩
  | succ n ih =>
    obtain ⟨hfound, hrest⟩ := @Rejoined.read _ _ s.isReserved h
    have hnext := next_withInput hfound
    obtain ⟨hagree, hafter⟩ := ih (s := s.next.2) hrest
    rw [AgreeFor, after, after, hnext]
    exact ⟨⟨rfl, hagree⟩, hafter⟩

end Source

theorem Rejoined.afterLine {a b : List Char} (h : Rejoined a b) :
    Rejoined (afterLine a) (afterLine b) := by
  induction h with
  | nil => exact .nil
  | final => exact .nil
  | crlf h _ => exact h
  | cons c h ih =>
    rw [LambdaCalc.afterLine, LambdaCalc.afterLine]
    split
    · exact h
    · exact ih

theorem afterLine_append_of_mem {input : List Char} (h : '\n' ∈ input) (rest : List Char) :
    afterLine (input ++ rest) = afterLine input ++ rest := by
  induction input with
  | nil => cases h
  | cons c input ih =>
    rw [List.cons_append, afterLine, afterLine]
    split
    · rfl
    · next hc => exact ih ((List.mem_cons.mp h).resolve_left (Ne.symm hc))

namespace Read

variable {r : Reader}

/-- If something is left behind a statement, it is the same whatever follows the text. -/
theorem statement_append (h : (left (statement r)).source.input ≠ []) (rest : List Char) :
    statement (r.withInput (r.source.input ++ rest)) =
      facing ((left (statement r)).source.withInput
        ((left (statement r)).source.input ++ rest)) (statement r) := by
  have hlength : r.source.input.length ≤
      (r.source.withInput (r.source.input ++ rest)).input.length := by
    simp [Source.withInput]
  obtain ⟨n, hn, hn'⟩ := statement_withSource r hlength
  rw [hn] at h ⊢
  obtain ⟨hagree, hafter⟩ := Source.after_append h rest
  exact (hn' hagree).trans (by rw [hafter])

theorem statement_rejoined {a : List Char} (h : Rejoined r.source.input a) :
    ∃ b, statement (r.withInput a) =
        facing ((left (statement r)).source.withInput b) (statement r) ∧
      Rejoined (left (statement r)).source.input b := by
  obtain ⟨n, hn, hn'⟩ := statement_of_agree fun n => (Source.after_rejoined n h).1
  obtain ⟨-, b, hafter, hb⟩ := Source.after_rejoined n h
  rw [hn]
  exact ⟨b, hn'.trans (by rw [hafter]), hb⟩

end Read

/-- The same turn, but a session that goes on does so in front of another text. -/
def Turn.withInput : Turn → List Char → Turn
  | next output session, input =>
    .next output { session with reader := session.reader.withInput input }
  | stop output ending, _ => .stop output ending

namespace Session

variable {s : Session} {a b : List Char} {output : String} {next : Session}

/-- The same session in front of another text. -/
def withInput (s : Session) (input : List Char) : Session :=
  { s with reader := s.reader.withInput input }

/-- Where a session goes on in the text that a statement has left. -/
def resume : Except Error (Option Command) → List Char → List Char
  | .ok _, input => input
  | .error _, input => afterLine input

theorem respond_withInput (s : Session) (found : Except Error (Option Command))
    (input : List Char) :
    (s.withInput input).respond found = (s.respond found).withInput (resume found input) := by
  cases found with
  | ok c? =>
    cases c? with
    | none => rfl
    | some c =>
      have hsame : c.execute (s.withInput input).reader.patience (s.withInput input).reader.supply =
          c.execute s.reader.patience s.reader.supply := rfl
      rw [respond, respond, perform, perform, hsame]
      split <;> rfl
  | error e =>
    cases e with
    | reservedWord word =>
      simp only [respond]
      by_cases hexit : s.exitRequested = true
      · have hexit' : (s.withInput input).exitRequested = true := hexit
        rw [if_pos hexit, if_pos hexit']
        rfl
      · have hexit' : ¬(s.withInput input).exitRequested = true := hexit
        rw [if_neg hexit, if_neg hexit']
        by_cases hhelp : s.helpRequested = true
        · have hhelp' : (s.withInput input).helpRequested = true := hhelp
          rw [if_pos hhelp, if_pos hhelp']
          rfl
        · have hhelp' : ¬(s.withInput input).helpRequested = true := hhelp
          rw [if_neg hhelp, if_neg hhelp']
          rfl
    | _ => rfl

theorem input_of_respond {found : Except Error (Option Command)}
    (h : s.respond found = .next output next) :
    next.reader.source.input = resume found s.reader.source.input := by
  cases found with
  | ok c? =>
    cases c? with
    | none => cases h
    | some c =>
      simp only [respond, perform] at h
      split at h <;> cases h <;> rfl
  | error e =>
    cases e with
    | reservedWord word =>
      simp only [respond] at h
      split at h
      · cases h
      · split at h <;> cases h <;> rfl
    | _ =>
      cases h
      rfl

theorem input_read (s : Session) :
    s.read.2.reader.source.input = (Read.left (Read.statement s.reader)).source.input := by
  cases hs : Read.statement s.reader with
  | ok c? r' => rw [read_of_ok hs]; rfl
  | error e r' => rw [read_of_error hs]; rfl

theorem read_withInput (h : Read.statement (s.reader.withInput a) =
    Read.facing ((Read.left (Read.statement s.reader)).source.withInput b)
      (Read.statement s.reader)) :
    (s.withInput a).read = (s.read.1, s.read.2.withInput b) := by
  cases hs : Read.statement s.reader with
  | ok c? r' =>
    rw [hs] at h
    rw [read_of_ok hs, read_of_ok h]
    rfl
  | error e r' =>
    rw [hs] at h
    rw [read_of_error hs, read_of_error h]
    rfl

theorem turn_withInput (h : (s.withInput a).read = (s.read.1, s.read.2.withInput b)) :
    (s.withInput a).turn = s.turn.withInput (resume s.read.1 b) := by
  rw [turn, turn, h]
  exact respond_withInput s.read.2 s.read.1 b

/-- If something is left behind a statement, the next turn is the same whatever follows the text. -/
theorem read_append (h : s.read.2.reader.source.input ≠ []) (rest : List Char) :
    (s.extend rest).read = (s.read.1, s.read.2.extend rest) := by
  rw [input_read] at h
  have hread := read_withInput (s := s) (Read.statement_append h rest)
  rw [← input_read] at hread
  exact hread

theorem read_rejoined (h : Rejoined s.reader.source.input a) :
    ∃ b, (s.withInput a).read = (s.read.1, s.read.2.withInput b) ∧
      Rejoined s.read.2.reader.source.input b := by
  obtain ⟨b, hstatement, hb⟩ := Read.statement_rejoined h
  rw [← input_read] at hb
  exact ⟨b, read_withInput hstatement, hb⟩

theorem turns_rejoined {n m : Nat} (hn : s.reader.source.input.length < n) (hm : a.length < m)
    (h : Rejoined s.reader.source.input a) : turns m (s.withInput a) = turns n s := by
  induction n generalizing s a m with
  | zero => exact absurd hn (Nat.not_lt_zero _)
  | succ n ih =>
    obtain ⟨m, rfl⟩ := Nat.exists_eq_add_one_of_ne_zero (Nat.ne_zero_of_lt hm)
    obtain ⟨b, hread, hb⟩ := read_rejoined h
    have hturn := turn_withInput hread
    cases ht : s.turn with
    | stop output ending =>
      rw [ht] at hturn
      rw [turns, turns, hturn, ht]
      rfl
    | next output next =>
      rw [ht] at hturn
      have hrest : Rejoined next.reader.source.input (resume s.read.1 b) := by
        rw [input_of_respond ht]
        cases s.read.1 with
        | ok c? => exact hb
        | error e => exact hb.afterLine
      have hless := length_lt_of_turn ht
      have hless' : (resume s.read.1 b).length < a.length := length_lt_of_turn hturn
      have hlater : turns m (next.withInput (resume s.read.1 b)) = turns n next :=
        ih (by omega) (by omega) hrest
      rw [turns_of_next hturn, turns_of_next ht, ← hlater]
      rfl

theorem run_rejoined {text input : List Char} (h : Rejoined text input) (budget patience : Nat) :
    run input budget patience = run text budget patience := by
  have hturns := turns_rejoined (s := start text budget patience)
    (Nat.lt_succ_self text.length) (Nat.lt_succ_self input.length) h
  rw [run, run, ← hturns]
  rfl

end Session

end LambdaCalc
