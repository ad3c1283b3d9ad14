import LambdaCalc.Proofs.Grammar

namespace LambdaCalc

namespace Token

def isVariableWord : Token → Bool
  | identifier _ => true
  | _ => false

def isLiteral : Token → Bool
  | number _ | truth _ => true
  | _ => false

/-- How many identities a token can make the reader draw. -/
def draws : Token → Nat
  | operator .lambda => 1
  | identifier _ => 1
  | number _ => 2
  | truth _ => 2
  | _ => 0

/-- How many identities the tokens can make the reader draw. -/
def drawsOf (tokens : List Token) : Nat :=
  tokens.count (operator .lambda) + tokens.countP isVariableWord + 2 * tokens.countP isLiteral

theorem drawsOf_append_singleton (tokens : List Token) (token : Token) :
    drawsOf (tokens ++ [token]) = drawsOf tokens + token.draws := by
  have hone : drawsOf [token] = token.draws := by
    cases token with
    | operator o => cases o <;> rfl
    | _ => rfl
  rw [← hone]
  simp only [drawsOf, List.count_append, List.countP_append]
  omega

end Token

namespace Read

variable {α β : Type} {s₀ : Source} {c credit left n : Nat} {r : Reader} {token : Token}
  {tokens : List Token}

/-- Reading from `s₀` on has cut off these tokens, and what it found next it has taken from the
text as well. -/
def Passed (s₀ : Source) (tokens : List Token) (found : Except Error Token) (s : Source) : Prop :=
  ∃ rest, Cut s₀.isReserved s₀.input tokens rest ∧
    Token.read s₀.isReserved rest = (found, s.input)

/-- The tokens that were passed since the supply was at `c` allow for what was drawn, and for
`credit` more. -/
structure Paid (s₀ : Source) (c credit : Nat) (r : Reader) : Prop where
  program : r.program = {}
  reserved : r.source.isReserved = s₀.isReserved
  supply : ∃ tokens, Passed s₀ tokens (.ok r.current) r.source ∧
    r.supply.id + credit ≤ c + Token.drawsOf tokens

/-- Reading goes on with `left` of the credit, or it has stopped without any debts. -/
def Settles (s₀ : Source) (c left : Nat) : EStateM.Result Error Reader α → Prop
  | .ok _ r => Paid s₀ c left r
  | .error _ r => ∃ tokens found, Passed s₀ tokens found r.source ∧
      r.supply.id ≤ c + Token.drawsOf tokens

/-- Of the credit the work leaves this much. -/
def Spends (s₀ : Source) (c credit left : Nat) (work : Read α) : Prop :=
  ∀ r, Paid s₀ c credit r → Settles s₀ c left (work r)

theorem Paid.mono (h : Paid s₀ c credit r) (hle : left ≤ credit) : Paid s₀ c left r := by
  obtain ⟨tokens, hp, hpaid⟩ := h.supply
  exact ⟨h.program, h.reserved, tokens, hp, by omega⟩

/-- What fails where it stands has drawn nothing that was not paid for. -/
theorem Paid.settles (h : Paid s₀ c credit r) (e : Error) :
    Settles s₀ c left (.error e r : EStateM.Result Error Reader α) := by
  obtain ⟨tokens, hp, hpaid⟩ := h.supply
  exact ⟨tokens, _, hp, by omega⟩

theorem Settles.mono {result : EStateM.Result Error Reader α} (h : Settles s₀ c credit result)
    (hle : left ≤ credit) : Settles s₀ c left result := by
  cases result with
  | ok a r => exact Paid.mono h hle
  | error e r => exact h

theorem Settles.bind {work : Read α} {next : α → Read β} (hw : Settles s₀ c credit (work r))
    (hn : ∀ a, Spends s₀ c credit left (next a)) : Settles s₀ c left ((work >>= next) r) := by
  cases h : work r with
  | ok a r₁ =>
    rw [h] at hw
    rw [bind_of_ok h]
    exact hn a r₁ hw
  | error e r₁ =>
    rw [h] at hw
    rw [bind_of_error h]
    exact hw

namespace Spends

variable {between : Nat} {work : Read α}

theorem bind {next : α → Read β} (hw : Spends s₀ c credit between work)
    (hn : ∀ a, Spends s₀ c between left (next a)) : Spends s₀ c credit left (work >>= next) :=
  fun r hp => (hw r hp).bind hn

theorem weaken (h : Spends s₀ c credit between work) (hle : left ≤ between) :
    Spends s₀ c credit left work :=
  fun r hp => (h r hp).mono hle

end Spends

theorem spends_pure (a : α) : Spends s₀ c credit credit (pure a) := fun _ hp => hp

theorem spends_throw (e : Error) : Spends s₀ c credit left (throw e : Read α) :=
  fun _ hp => hp.settles e

theorem spends_refuse (wanted : Expectation) : Spends s₀ c credit left (refuse wanted : Read α) :=
  fun _ hp => hp.settles _

/-- Drawing costs as many identities as are drawn. -/
theorem spends_fresh {work : Fresh α} (h : ∀ s, (work s).2.id ≤ s.id + n) :
    Spends s₀ c (credit + n) credit (liftM work : Read α) := by
  intro r hp
  obtain ⟨tokens, hpassed, hpaid⟩ := hp.supply
  have hn := h r.supply
  rw [liftM_fresh]
  exact ⟨hp.program, hp.reserved, tokens, hpassed, by simp only; omega⟩

theorem spends_label {work : Fresh α} (h : ∀ s, (work s).2.id = s.id) :
    Spends s₀ c credit credit (liftM work : Read α) :=
  spends_fresh (n := 0) fun s => Nat.le_of_eq (h s)

theorem settles_advance (hprogram : r.program = {})
    (hreserved : r.source.isReserved = s₀.isReserved)
    (hcut : Cut s₀.isReserved s₀.input tokens r.source.input)
    (hpaid : r.supply.id + credit ≤ c + Token.drawsOf tokens) :
    Settles s₀ c credit (advance r) := by
  rw [advance]
  cases hn : r.source.next with
  | mk found source =>
    have hread := Source.read_of_next hn
    rw [hreserved] at hread
    cases found with
    | ok next =>
      exact ⟨hprogram, (Source.isReserved_of_next hn).trans hreserved, tokens, ⟨_, hcut, hread⟩,
        hpaid⟩
    | error e => exact ⟨tokens, _, ⟨_, hcut, hread⟩, by simp only; omega⟩

/-- Moving on over a token pays for what it can make the reader draw. -/
theorem Paid.advance (h : Paid s₀ c credit r) (hc : r.current = token) (hne : token ≠ .endOfInput) :
    Settles s₀ c (credit + token.draws) (advance r) := by
  obtain ⟨tokens, ⟨rest, hcut, hread⟩, hpaid⟩ := h.supply
  rw [hc] at hread
  refine settles_advance h.program h.reserved (hcut.append (.cons hread hne (.nil _))) ?_
  rw [Token.drawsOf_append_singleton]
  omega

theorem Spends.after_advance {work : Read α} (hw : Spends s₀ c (credit + token.draws) left work)
    (hp : Paid s₀ c credit r) (hc : r.current = token) (hne : token ≠ .endOfInput) :
    Settles s₀ c left ((Read.advance >>= fun _ => work) r) :=
  (hp.advance hc hne).bind fun _ => hw

theorem spends_expect (operator : Operator) (wanted : Expectation) :
    Spends s₀ c credit credit (expect operator wanted) := by
  intro r hp
  rw [expect, current_bind]
  split
  · next hc => exact (hp.advance hc (by simp)).mono (Nat.le_add_right _ _)
  · exact spends_refuse wanted r hp

theorem spends_identifier (wanted : Expectation) :
    Spends s₀ c credit (credit + 1) (identifier wanted) := by
  intro r hp
  rw [identifier, current_bind]
  generalize hc : r.current = token
  split
  · exact (spends_pure _).after_advance hp hc (by simp)
  · exact spends_refuse wanted r hp

theorem spends_occurrence (scope : List Variable) (word : String) :
    Spends s₀ c (credit + 1) credit (occurrence scope word) := by
  rw [occurrence]
  split
  · exact spends_fresh fun s => Nat.le_succ s.id
  · exact (spends_fresh fun s => Nat.le_refl (s.id + 1)).bind fun v => spends_label fun s => rfl

theorem spends_numeral (digits : String) : Spends s₀ c (credit + 2) credit (numeral digits) := by
  have hcount : Spends s₀ c (credit + 2) (credit + 2) (count digits) := by
    rw [count]
    split
    · exact spends_pure _
    · exact spends_throw _
  refine hcount.bind fun n => ?_
  split
  · exact spends_throw _
  · exact spends_fresh fun s => Nat.le_of_eq (Term.numeral_built [] n s (Nat.le_refl s.id)).2

/-- Where no name stands for anything, a name is an error. -/
theorem spends_expansion (word : String) : Spends s₀ c credit left (expansion word) := by
  intro r hp
  have hg : (get : Read Reader) r = .ok r r := rfl
  rw [expansion, bind_of_ok hg, hp.program]
  exact spends_throw _ r hp

/-- An expression draws for the tokens of its own, and leaves the credit as it was. -/
theorem spends_expressionWithin (room : List Char) (scope : List Variable) :
    Spends s₀ c credit credit (expressionWithin room scope) := by
  induction room generalizing credit scope with
  | nil => exact spends_throw _
  | cons _ room ih =>
    intro r hp
    rw [expressionWithin, current_bind]
    generalize hc : r.current = token
    split
    case h_1 =>
      -- The word of the head pays for the head, so that what the lambda pays is left over.
      refine Spends.after_advance ?_ hp hc (by simp)
      refine (spends_identifier _).bind fun word => (spends_expect _ _).bind fun _ => ?_
      refine (spends_fresh fun s => Nat.le_refl (s.id + 1)).bind fun head => ?_
      refine (ih (head :: scope)).bind fun body => ?_
      exact (spends_label fun s => rfl).weaken (Nat.le_succ credit)
    case h_2 =>
      refine Spends.after_advance ?_ hp hc (by simp)
      refine (ih scope).bind fun fn => (spends_expect _ _).bind fun _ => ?_
      intro r₁ hp₁
      rw [current_bind]
      split
      · exact ((ih scope).bind fun arg => spends_label fun s => rfl) r₁ hp₁
      · exact spends_pure fn r₁ hp₁
    case h_3 => exact (spends_occurrence scope _).after_advance hp hc (by simp)
    case h_4 => exact (spends_numeral _).after_advance hp hc (by simp)
    case h_5 => exact (spends_fresh fun s => Nat.le_refl (s.id + 2)).after_advance hp hc (by simp)
    case h_6 => exact (spends_expansion _).after_advance hp hc (by simp)
    case h_7 => exact spends_refuse _ r hp

theorem settles_wholeExpression (hprogram : r.program = {}) :
    Settles r.source r.supply.id 0 (wholeExpression r) := by
  rw [wholeExpression, room_bind]
  have hfirst : Settles r.source r.supply.id 0 (advance r) :=
    settles_advance hprogram rfl (.nil _) (Nat.le_refl _)
  refine hfirst.bind fun _ => (spends_expressionWithin _ []).bind fun t => ?_
  intro r₁ hp
  rw [current_bind]
  split
  · exact spends_pure t r₁ hp
  · exact spends_refuse _ r₁ hp

end Read

namespace Term

/-- The heads and the free occurrences of a term that is read have the next identities of the
supply, in the order in which they are written, and every bound occurrence has that of the lambda
that it belongs to. Nothing else is drawn. If the text cannot be read, then nothing is given back,
and at most one identity was drawn for each lambda and for each identifier that the reader had
passed when it came to the token at which it failed, and two for each literal. -/
theorem ofText_draws (text : String) (s : Supply) :
    (∀ t s', ofText text s = .ok t s' →
      t.introduced.map Variable.id = List.range' s.id t.introduced.length ∧
        s'.id = s.id + t.introduced.length ∧ t.WellScoped s'.id ∧
        ∀ v ∈ t.vars, v.bound = true → v.id ∈ t.heads.map Variable.id) ∧
    (∀ e s', ofText text s = .error e s' → s.id ≤ s'.id ∧ ∃ r' tokens rest found,
      Read.wholeExpression (readerOf text s) = .error e r' ∧ r'.supply = s' ∧
      Cut (fun _ => false) text.toList tokens rest ∧
      Token.read (fun _ => false) rest = (found, r'.source.input) ∧
      s'.id ≤ s.id + (tokens.count (.operator .lambda) + tokens.countP Token.isVariableWord +
        2 * tokens.countP Token.isLiteral)) := by
  constructor
  · intro t s' h
    obtain ⟨p, -, hd⟩ := ofText_eq_ok_iff.mp h
    obtain ⟨hsupply, hids⟩ := hd.introduced_eq (by simp)
    have hbuilt := hd.built (by simp) (Nat.le_refl s.id)
    have hscoped := (hbuilt.wellFormed (Nat.le_refl s.id)).wellScoped
    exact ⟨hids, hsupply, hscoped, fun v hv hb => hbuilt.resolved.id_mem hv hb⟩
  · intro e s' h
    obtain ⟨r', hread, rfl⟩ := ofText_error_iff_read.mp h
    have hsettles := Read.settles_wholeExpression (r := readerOf text s) rfl
    rw [hread] at hsettles
    obtain ⟨tokens, found, ⟨rest, hcut, hnext⟩, hpaid⟩ := hsettles
    have hle := (Read.frames_wholeExpression.keeps_of_error hread).le
    exact ⟨hle, r', tokens, rest, found, hread, rfl, hcut, hnext, hpaid⟩

/-- With one more bracket, which closes nothing, the text of an expression cannot be read. Each time
its head, its free occurrence and its numeral take four identities. -/
theorem ofText_draws_extraBracket :
    (∃ t s', ofText "\\x.(y) 3" ⟨10, 0⟩ = .ok t s' ∧ s'.id = 14 ∧
      t.introduced.map Variable.id = [10, 11, 12, 13]) ∧
    ∃ e s', ofText "\\x.(y) 3 )" ⟨10, 0⟩ = .error e s' ∧ s'.id = 14 ∧ ∃ tokens rest,
      Cut (fun _ => false) "\\x.(y) 3 )".toList tokens rest ∧
      s'.id ≤ 10 + Token.drawsOf tokens := by
  constructor
  · have hrun : (Read.answers? Read.wholeExpression (readerOf "\\x.(y) 3" ⟨10, 0⟩)).map
        (fun found => (found.1.introduced.length, found.2.supply.id)) = some (4, 14) := by
      decide +kernel
    obtain ⟨⟨t, r'⟩, hanswers, hfound⟩ := Option.map_eq_some_iff.mp hrun
    simp only [Prod.mk.injEq] at hfound
    have hreads := ofText_ok_iff_read.mpr ⟨r', Read.answers?_eq_some_iff.mp hanswers, rfl⟩
    obtain ⟨hids, -, -, -⟩ := (ofText_draws _ _).1 t _ hreads
    rw [hfound.1] at hids
    exact ⟨t, r'.supply, hreads, hfound.2, hids⟩
  · have hrun : (Read.stops? Read.wholeExpression (readerOf "\\x.(y) 3 )" ⟨10, 0⟩)).map
        (·.2.supply.id) = some 14 := by
      decide +kernel
    obtain ⟨⟨e, r'⟩, hstops, hid⟩ := Option.map_eq_some_iff.mp hrun
    have hfails := ofText_error_iff_read.mpr ⟨r', Read.stops?_eq_some_iff.mp hstops, rfl⟩
    obtain ⟨-, -, tokens, rest, -, -, -, hcut, -, hpaid⟩ := (ofText_draws _ _).2 e _ hfails
    exact ⟨e, r'.supply, hfails, hid, tokens, rest, hcut, hpaid⟩

end Term

end LambdaCalc
