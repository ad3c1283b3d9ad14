import LambdaCalc.Proofs.Phrase
import LambdaCalc.Proofs.Reading
import LambdaCalc.Proofs.Tokens

namespace LambdaCalc

namespace Source

variable {s s' : Source} {found : Except Error Token}

theorem read_of_next (h : s.next = (found, s')) :
    Token.read s.isReserved s.input = (found, s'.input) := by
  obtain rfl : s.next.1 = found := by rw [h]
  obtain rfl : s.next.2 = s' := by rw [h]
  rfl

theorem next_of_read {rest : List Char} (h : Token.read s.isReserved s.input = (found, rest)) :
    s.next = (found, s.next.2) := by
  have hfound : s.next.1 = found := congrArg Prod.fst h
  exact Prod.ext hfound rfl

theorem isReserved_of_next (h : s.next = (found, s')) : s'.isReserved = s.isReserved := by
  obtain rfl : s.next.2 = s' := by rw [h]
  rfl

end Source

/-- A place in a text: the token that stands there, and what comes behind it. -/
structure Place where
  current : Token
  source : Source

/-- Moving on over the tokens, one after the other, leads from the first place to the second. -/
inductive Place.Passes : Place → List Token → Place → Prop
  | nil (p : Place) : Passes p [] p
  | cons {p m q : Place} {tokens : List Token} :
      p.source.next = (.ok m.current, m.source) → Passes m tokens q →
      Passes p (p.current :: tokens) q

namespace Place

theorem passes_singleton {p q : Place} {token : Token} :
    p.Passes [token] q ↔ p.current = token ∧ p.source.next = (.ok q.current, q.source) := by
  constructor
  · intro h
    cases h with
    | cons hn hnil =>
      cases hnil
      exact ⟨rfl, hn⟩
  · rintro ⟨rfl, hn⟩
    exact .cons hn (.nil q)

theorem passes_append {p q : Place} {tokens tokens' : List Token} :
    p.Passes (tokens ++ tokens') q ↔ ∃ m, p.Passes tokens m ∧ m.Passes tokens' q := by
  constructor
  · intro h
    induction tokens generalizing p with
    | nil => exact ⟨p, .nil p, h⟩
    | cons token tokens ih =>
      cases h with
      | cons hn hrest =>
        obtain ⟨m, hm, hq⟩ := ih hrest
        exact ⟨m, .cons hn hm, hq⟩
  · rintro ⟨m, hm, hq⟩
    induction hm with
    | nil _ => exact hq
    | cons hn _ ih => exact .cons hn (ih hq)

theorem passes_cons {p q : Place} {token : Token} {tokens : List Token} :
    p.Passes (token :: tokens) q ↔ ∃ m, p.Passes [token] m ∧ m.Passes tokens q := by
  rw [← List.singleton_append, passes_append]

/-- Moving on over a token shows that it stands there. -/
theorem Passes.current_eq {p q : Place} {token : Token} {tokens : List Token}
    (h : p.Passes (token :: tokens) q) : p.current = token := by
  cases h with
  | cons _ _ => rfl

/-- The tokens of a text are those over which one moves on to its end. -/
theorem tokenized_iff_passes {source : Source} {p : Place} {tokens : List Token}
    (hn : source.next = (.ok p.current, p.source)) (htokens : .endOfInput ∉ tokens) :
    Tokenized source.isReserved source.input tokens ↔
      ∃ q, p.Passes tokens q ∧ q.current = .endOfInput := by
  induction tokens generalizing source p with
  | nil =>
    rw [Tokenized.nil_iff, Source.read_of_next hn]
    constructor
    · rintro ⟨rest, hr⟩
      have hc : p.current = .endOfInput := by simpa using congrArg Prod.fst hr
      exact ⟨p, .nil p, hc⟩
    · rintro ⟨q, hq, hc⟩
      cases hq
      exact ⟨p.source.input, by rw [hc]⟩
  | cons token tokens ih =>
    rw [List.mem_cons, not_or] at htokens
    rw [Tokenized.cons_iff, Source.read_of_next hn, ← Source.isReserved_of_next hn]
    constructor
    · rintro ⟨rest, hr, -, hrest⟩
      cases hr
      obtain ⟨next, behind, hnext⟩ := hrest.exists_read
      have hm : p.source.next = (.ok next, p.source.next.2) := Source.next_of_read hnext
      obtain ⟨q, hq, hend⟩ := (ih (p := ⟨next, p.source.next.2⟩) hm htokens.2).mp hrest
      exact ⟨q, .cons hm hq, hend⟩
    · rintro ⟨q, hq, hend⟩
      cases hq with
      | cons hm hq =>
        exact ⟨p.source.input, rfl, htokens.1 ∘ Eq.symm, (ih hm htokens.2).mpr ⟨q, hq, hend⟩⟩

end Place

def Reader.place (r : Reader) : Place := ⟨r.current, r.source⟩

def Reader.moveTo (r : Reader) (p : Place) : Reader :=
  { r with current := p.current, source := p.source }

namespace Read

variable {r r' : Reader}

theorem advance_eq_ok_iff :
    advance r = .ok () r' ↔ ∃ q, r.place.Passes [r.current] q ∧ r' = r.moveTo q := by
  simp only [Place.passes_singleton, advance]
  constructor
  · intro h
    cases hn : r.source.next with
    | mk found source =>
      cases found with
      | ok token =>
        simp only [hn] at h
        cases h
        exact ⟨⟨token, source⟩, ⟨rfl, hn⟩, rfl⟩
      | error e =>
        simp only [hn] at h
        cases h
  · rintro ⟨q, ⟨_, hn⟩, rfl⟩
    have hn : r.source.next = (.ok q.current, q.source) := hn
    simp only [hn]
    rfl

theorem advance_of_passes {q : Place} {token : Token} (h : r.place.Passes [token] q) :
    advance r = .ok () (r.moveTo q) := by
  have hc : r.current = token := h.current_eq
  exact advance_eq_ok_iff.mpr ⟨q, hc ▸ h, rfl⟩

theorem expect_eq_ok_iff {operator : Operator} {wanted : Expectation} :
    expect operator wanted r = .ok () r' ↔
      ∃ q, r.place.Passes [.operator operator] q ∧ r' = r.moveTo q := by
  by_cases hc : r.current = .operator operator
  · have he : expect operator wanted r = advance r := by
      rw [expect, current_bind, if_pos hc]
    rw [he, advance_eq_ok_iff, hc]
  · have he : expect operator wanted r = refuse wanted r := by
      rw [expect, current_bind, if_neg hc]
    rw [he]
    constructor
    · intro h
      cases h
    · rintro ⟨q, hq, -⟩
      exact absurd hq.current_eq hc

theorem identifier_eq_ok_iff {wanted : Expectation} {word : String} :
    identifier wanted r = .ok word r' ↔
      ∃ q, r.place.Passes [.identifier word] q ∧ r' = r.moveTo q := by
  constructor
  · intro h
    rw [identifier, current_bind] at h
    generalize hc : r.current = token at h
    split at h
    · next w =>
      obtain ⟨_, r₁, ha, hw⟩ := bind_eq_ok h
      cases hw
      rw [advance_eq_ok_iff, hc] at ha
      exact ha
    · cases h
  · rintro ⟨q, hq, rfl⟩
    have hc : r.current = .identifier word := hq.current_eq
    rw [identifier, current_bind, hc]
    exact bind_of_ok (advance_of_passes hq)

open Phrase

variable {scope : List Variable} {t : Term}

theorem occurrence_eq_ok_iff {word : String} (program : Program) (patience : Nat) :
    occurrence scope word r = .ok t r' ↔ ∃ s,
      (Phrase.identifier word).Denotes program patience scope r.supply t s ∧
        r' = { r with supply := s } := by
  constructor
  · intro h
    rw [occurrence] at h
    cases hf : scope.find? (·.name == word) with
    | some head =>
      rw [hf] at h
      cases h
      exact ⟨_, .bound hf, rfl⟩
    | none =>
      rw [hf] at h
      cases h
      exact ⟨_, .free hf, rfl⟩
  · rintro ⟨s, hd, rfl⟩
    rw [occurrence]
    cases hd with
    | bound hf =>
      rw [hf]
      rfl
    | free hf =>
      rw [hf]
      rfl

theorem count_eq_ok_iff {digits : String} {n : Nat} :
    count digits r = .ok n r' ↔
      (Text.Decimal.value digits.toList = n ∧ n < Text.Decimal.countBound) ∧ r' = r := by
  rw [← Text.Decimal.bounded?_eq_some_iff, count]
  cases Text.Decimal.bounded? digits.toList with
  | some m =>
    constructor
    · intro h
      cases h
      exact ⟨rfl, rfl⟩
    · rintro ⟨h, rfl⟩
      cases h
      rfl
  | none =>
    constructor
    · intro h
      cases h
    · rintro ⟨h, -⟩
      cases h

theorem numeral_eq_ok_iff {digits : String} (program : Program) (patience : Nat)
    (scope : List Variable) :
    numeral digits r = .ok t r' ↔ ∃ s,
      (Phrase.number digits).Denotes program patience scope r.supply t s ∧
        r' = { r with supply := s } := by
  constructor
  · intro h
    obtain ⟨n, r₁, hn, hterm⟩ := bind_eq_ok h
    obtain ⟨⟨rfl, -⟩, rfl⟩ := count_eq_ok_iff.mp hn
    split at hterm
    · cases hterm
    · next hle =>
      cases hterm
      exact ⟨_, .number (Nat.le_of_not_lt hle), rfl⟩
  · rintro ⟨s, hd, rfl⟩
    cases hd with
    | number hle =>
      have hlt : Text.Decimal.value digits.toList < Text.Decimal.countBound :=
        Nat.lt_of_le_of_lt hle (by decide)
      have hn : count digits r = .ok (Text.Decimal.value digits.toList) r :=
        count_eq_ok_iff.mpr ⟨⟨rfl, hlt⟩, rfl⟩
      rw [numeral, bind_of_ok hn, if_neg (Nat.not_lt.mpr hle)]
      rfl

theorem expansion_eq_ok_iff {word : String} (scope : List Variable) :
    expansion word r = .ok t r' ↔ ∃ s,
      (Phrase.name word).Denotes r.program r.patience scope r.supply t s ∧
        r' = { r with supply := s } := by
  constructor
  · intro h
    obtain ⟨c, u, s, hc, he, rfl, rfl⟩ := expansion_eq_ok h
    exact ⟨_, .name hc he, rfl⟩
  · rintro ⟨s, hd, rfl⟩
    cases hd with
    | @name _ _ s₁ _ c u hc he =>
      have hu : ofAttempt (c.execute r.patience) r = .ok u { r with supply := s₁ } := by
        rw [ofAttempt, he]
      have hg : (get : Read Reader) r = .ok r r := rfl
      rw [expansion, bind_of_ok hg, hc]
      exact bind_of_ok hu

/-- A term that is read was written as some phrase, and is what the phrase denotes. The phrase goes
on as long as it can. -/
theorem denotes_of_expressionWithin {room : List Char}
    (h : expressionWithin room scope r = .ok t r') :
    ∃ (p : Phrase) (q : Place) (s : Supply), r.place.Passes p.tokens q ∧
      p.Denotes r.program r.patience scope r.supply t s ∧
      r' = { r.moveTo q with supply := s } ∧
      (p.endsInGroup = true → q.current.startsExpression = false) := by
  induction room generalizing scope r t r' with
  | nil => cases h
  | cons c room ih =>
    rw [expressionWithin, current_bind] at h
    generalize hc : r.current = token at h
    split at h
    case h_1 =>
      obtain ⟨_, r₁, h₁, h⟩ := bind_eq_ok h
      obtain ⟨word, r₂, h₂, h⟩ := bind_eq_ok h
      obtain ⟨_, r₃, h₃, h⟩ := bind_eq_ok h
      obtain ⟨head, r₄, h₄, h⟩ := bind_eq_ok h
      obtain ⟨body, r₅, h₅, h⟩ := bind_eq_ok h
      obtain ⟨q₁, hq₁, rfl⟩ := advance_eq_ok_iff.mp h₁
      obtain ⟨q₂, hq₂, rfl⟩ := identifier_eq_ok_iff.mp h₂
      obtain ⟨q₃, hq₃, rfl⟩ := expect_eq_ok_iff.mp h₃
      cases h₄
      obtain ⟨p, q, s, hq, hd, rfl, hend⟩ := ih h₅
      cases h
      rw [hc] at hq₁
      refine ⟨.lambda word p, q, ⟨s.id, s.node + 1⟩, ?_, .lambda hd, rfl, hend⟩
      exact Place.passes_cons.mpr ⟨q₁, hq₁, Place.passes_cons.mpr ⟨q₂, hq₂,
        Place.passes_cons.mpr ⟨q₃, hq₃, hq⟩⟩⟩
    case h_2 =>
      obtain ⟨_, r₁, h₁, h⟩ := bind_eq_ok h
      obtain ⟨f, r₂, h₂, h⟩ := bind_eq_ok h
      obtain ⟨_, r₃, h₃, h⟩ := bind_eq_ok h
      obtain ⟨q₁, hq₁, rfl⟩ := advance_eq_ok_iff.mp h₁
      obtain ⟨p, q₂, s, hq₂, hd, rfl, -⟩ := ih h₂
      obtain ⟨q₃, hq₃, rfl⟩ := expect_eq_ok_iff.mp h₃
      rw [hc] at hq₁
      rw [current_bind] at h
      split at h
      · obtain ⟨a, r₄, h₄, h⟩ := bind_eq_ok h
        obtain ⟨p', q₄, s', hq₄, hd', rfl, hend⟩ := ih h₄
        cases h
        refine ⟨.apply p p', q₄, ⟨s'.id, s'.node + 1⟩, ?_, .apply hd hd', rfl, hend⟩
        exact Place.passes_cons.mpr ⟨q₁, hq₁, Place.passes_append.mpr ⟨q₂, hq₂,
          Place.passes_cons.mpr ⟨q₃, hq₃, hq₄⟩⟩⟩
      · next hend =>
        cases h
        refine ⟨.group p, q₃, s, ?_, .group hd, rfl, fun _ => by simpa [Reader.moveTo] using hend⟩
        exact Place.passes_cons.mpr ⟨q₁, hq₁, Place.passes_append.mpr ⟨q₂, hq₂, hq₃⟩⟩
    case h_3 word =>
      obtain ⟨_, r₁, h₁, h⟩ := bind_eq_ok h
      obtain ⟨q, hq, rfl⟩ := advance_eq_ok_iff.mp h₁
      obtain ⟨s, hd, rfl⟩ := (occurrence_eq_ok_iff r.program r.patience).mp h
      rw [hc] at hq
      exact ⟨.identifier word, q, s, hq, hd, rfl, by simp [endsInGroup]⟩
    case h_4 digits =>
      obtain ⟨_, r₁, h₁, h⟩ := bind_eq_ok h
      obtain ⟨q, hq, rfl⟩ := advance_eq_ok_iff.mp h₁
      obtain ⟨s, hd, rfl⟩ := (numeral_eq_ok_iff r.program r.patience scope).mp h
      rw [hc] at hq
      exact ⟨.number digits, q, s, hq, hd, rfl, by simp [endsInGroup]⟩
    case h_5 value =>
      obtain ⟨_, r₁, h₁, h⟩ := bind_eq_ok h
      obtain ⟨q, hq, rfl⟩ := advance_eq_ok_iff.mp h₁
      cases h
      rw [hc] at hq
      exact ⟨.truth value, q, _, hq, .truth, rfl, by simp [endsInGroup]⟩
    case h_6 word =>
      obtain ⟨_, r₁, h₁, h⟩ := bind_eq_ok h
      obtain ⟨q, hq, rfl⟩ := advance_eq_ok_iff.mp h₁
      obtain ⟨s, hd, rfl⟩ := (expansion_eq_ok_iff scope).mp h
      rw [hc] at hq
      exact ⟨.name word, q, s, hq, hd, rfl, by simp [endsInGroup]⟩
    case h_7 => cases h

theorem exists_room (p : Phrase) {room : List Char} (h : p.tokens.length ≤ room.length) :
    ∃ c rest, room = c :: rest ∧ p.tokens.length ≤ rest.length + 1 := by
  obtain ⟨first, tail, hp, -⟩ := p.exists_tokens_eq_cons
  have hpos : 0 < room.length := by
    rw [hp, List.length_cons] at h
    omega
  obtain ⟨c, rest, rfl⟩ := List.exists_cons_of_length_pos hpos
  exact ⟨c, rest, rfl, h⟩

theorem expressionWithin_lambda {c : Char} {room : List Char} {word : String} {q : Place}
    (h : r.place.Passes [.operator .lambda, .identifier word, .operator .dot] q) :
    expressionWithin (c :: room) scope r =
      (do Term.newLam ⟨word, true, r.supply.id⟩
            (← expressionWithin room (⟨word, true, r.supply.id⟩ :: scope)) : Read Term)
        { r.moveTo q with supply := ⟨r.supply.id + 1, r.supply.node⟩ } := by
  have hc : r.current = .operator .lambda := h.current_eq
  obtain ⟨q₁, h₁, h⟩ := Place.passes_cons.mp h
  obtain ⟨q₂, h₂, h₃⟩ := Place.passes_cons.mp h
  have hword : identifier .lambdaHead (r.moveTo q₁) = .ok word (r.moveTo q₂) :=
    identifier_eq_ok_iff.mpr ⟨q₂, h₂, rfl⟩
  have hdot : expect .dot .lambdaDot (r.moveTo q₂) = .ok () (r.moveTo q) :=
    expect_eq_ok_iff.mpr ⟨q, h₃, rfl⟩
  rw [expressionWithin, current_bind, hc]
  refine (bind_of_ok (advance_of_passes h₁)).trans ?_
  refine (bind_of_ok hword).trans ?_
  exact bind_of_ok hdot

/-- Behind a closing bracket the next token tells whether the expression is applied to another. -/
theorem expressionWithin_brackets {c : Char} {room : List Char} {q₁ q₂ q : Place} {fn : Term}
    {s : Supply} (h₁ : r.place.Passes [.operator .openBracket] q₁)
    (hfn : expressionWithin room scope (r.moveTo q₁) = .ok fn { r.moveTo q₂ with supply := s })
    (h₂ : q₂.Passes [.operator .closeBracket] q) :
    expressionWithin (c :: room) scope r =
      (if q.current.startsExpression then
        (do Term.newApp fn (← expressionWithin room scope) : Read Term)
      else pure fn) { r.moveTo q with supply := s } := by
  have hc : r.current = .operator .openBracket := h₁.current_eq
  have hclose : expect .closeBracket .closingBracket { r.moveTo q₂ with supply := s } =
      .ok () { r.moveTo q with supply := s } := expect_eq_ok_iff.mpr ⟨q, h₂, rfl⟩
  rw [expressionWithin, current_bind, hc]
  refine (bind_of_ok (advance_of_passes h₁)).trans ?_
  refine (bind_of_ok hfn).trans ?_
  exact (bind_of_ok hclose).trans (current_bind _ _)

theorem startsExpression_of_closes {q₁ q₂ : Place}
    (h : q₁.Passes [.operator .closeBracket] q₂) : q₁.current.startsExpression = false := by
  rw [h.current_eq]
  rfl

/-- A phrase that denotes a term is read as that term, if nothing behind it could go on with it. -/
theorem expressionWithin_of_denotes {program : Program} {patience : Nat} {s s' : Supply}
    {p : Phrase} {q : Place} {c : Char} {room : List Char}
    (hd : p.Denotes program patience scope s t s')
    (hprogram : r.program = program) (hpatience : r.patience = patience) (hs : r.supply = s)
    (hp : r.place.Passes p.tokens q)
    (hq : p.endsInGroup = true → q.current.startsExpression = false)
    (hroom : p.tokens.length ≤ room.length + 1) :
    expressionWithin (c :: room) scope r = .ok t { r.moveTo q with supply := s' } := by
  induction hd generalizing r q c room with
  | bound hf =>
    have hc : r.current = .identifier _ := hp.current_eq
    subst hs
    rw [expressionWithin, current_bind, hc]
    refine (bind_of_ok (advance_of_passes hp)).trans ?_
    exact (occurrence_eq_ok_iff program patience).mpr ⟨_, .bound hf, rfl⟩
  | free hf =>
    have hc : r.current = .identifier _ := hp.current_eq
    subst hs
    rw [expressionWithin, current_bind, hc]
    refine (bind_of_ok (advance_of_passes hp)).trans ?_
    exact (occurrence_eq_ok_iff program patience).mpr ⟨_, .free hf, rfl⟩
  | number hle =>
    have hc : r.current = .number _ := hp.current_eq
    subst hs
    rw [expressionWithin, current_bind, hc]
    refine (bind_of_ok (advance_of_passes hp)).trans ?_
    exact (numeral_eq_ok_iff program patience []).mpr ⟨_, .number hle, rfl⟩
  | truth =>
    have hc : r.current = .truth _ := hp.current_eq
    subst hs
    rw [expressionWithin, current_bind, hc]
    exact bind_of_ok (advance_of_passes hp)
  | name hget he =>
    have hc : r.current = .name _ := hp.current_eq
    subst hprogram hpatience hs
    rw [expressionWithin, current_bind, hc]
    refine (bind_of_ok (advance_of_passes hp)).trans ?_
    exact (expansion_eq_ok_iff []).mpr ⟨_, .name hget he, rfl⟩
  | @lambda scope s s₁ word body t _ ih =>
    subst hs
    have hp : r.place.Passes
        ([.operator .lambda, .identifier word, .operator .dot] ++ body.tokens) q := hp
    obtain ⟨q', hhead, hp⟩ := Place.passes_append.mp hp
    have hbody : body.tokens.length ≤ room.length := by
      simp only [tokens, List.length_cons] at hroom
      omega
    obtain ⟨c', room, rfl, hroom'⟩ := exists_room body hbody
    rw [expressionWithin_lambda hhead]
    exact bind_of_ok (ih (r := { r.moveTo q' with supply := ⟨r.supply.id + 1, r.supply.node⟩ })
      hprogram hpatience rfl hp hq hroom')
  | @group scope s s₁ inner t _ ih =>
    subst hs
    obtain ⟨q₁, h₁, hp⟩ := Place.passes_cons.mp hp
    obtain ⟨q₂, h₂, h₃⟩ := Place.passes_append.mp hp
    have hinner : inner.tokens.length ≤ room.length := by
      simp only [tokens, List.length_cons, List.length_append] at hroom
      omega
    obtain ⟨c', room, rfl, hroom'⟩ := exists_room inner hinner
    have hfn := ih (r := r.moveTo q₁) (c := c') hprogram hpatience rfl h₂
      (fun _ => startsExpression_of_closes h₃) hroom'
    rw [expressionWithin_brackets h₁ hfn h₃, hq rfl]
    rfl
  | @apply scope s s₁ s₂ fn arg t u _ _ ihf iha =>
    subst hs
    obtain ⟨q₁, h₁, hp⟩ := Place.passes_cons.mp hp
    obtain ⟨q₂, h₂, hp⟩ := Place.passes_append.mp hp
    obtain ⟨q₃, h₃, hp⟩ := Place.passes_cons.mp hp
    have hlengths : fn.tokens.length ≤ room.length ∧ arg.tokens.length ≤ room.length := by
      simp only [tokens, List.length_cons, List.length_append] at hroom
      omega
    obtain ⟨c', room, rfl, hroom'⟩ := exists_room fn hlengths.1
    have hfn := ihf (r := r.moveTo q₁) (c := c') hprogram hpatience rfl h₂
      (fun _ => startsExpression_of_closes h₃) hroom'
    have harg := iha (r := { r.moveTo q₃ with supply := s₁ }) (c := c') hprogram hpatience rfl hp hq
      hlengths.2
    have hbegin : q₃.current.startsExpression = true := by
      obtain ⟨first, rest, htokens, hfirst⟩ := arg.exists_tokens_eq_cons
      rw [htokens] at hp
      rwa [hp.current_eq]
    rw [expressionWithin_brackets h₁ hfn h₃, if_pos hbegin]
    exact bind_of_ok harg

/-- The whole of a text is read as a term exactly when it is written as a phrase that denotes the
term. -/
theorem wholeExpression_eq_ok_iff {s : Supply} :
    (∃ r', wholeExpression r = .ok t r' ∧ r'.supply = s) ↔
      ∃ p : Phrase, Tokenized r.source.isReserved r.source.input p.tokens ∧
        p.Denotes r.program r.patience [] r.supply t s := by
  constructor
  · rintro ⟨r', h, rfl⟩
    rw [wholeExpression, room_bind] at h
    obtain ⟨_, r₁, h₁, h⟩ := bind_eq_ok h
    obtain ⟨u, r₂, h₂, h⟩ := bind_eq_ok h
    obtain ⟨q₁, hq₁, rfl⟩ := advance_eq_ok_iff.mp h₁
    obtain ⟨p, q, s, hq, hd, rfl, -⟩ := denotes_of_expressionWithin h₂
    have hn : r.source.next = (.ok q₁.current, q₁.source) := (Place.passes_singleton.mp hq₁).2
    rw [current_bind] at h
    split at h
    · next hend =>
      cases h
      exact ⟨p, (Place.tokenized_iff_passes hn p.endOfInput_notMem_tokens).mpr ⟨q, hq, hend⟩, hd⟩
    · cases h
  · rintro ⟨p, htokens, hd⟩
    obtain ⟨first, rest, hfirst⟩ := htokens.exists_read
    let q₁ : Place := ⟨first, r.source.next.2⟩
    have hn : r.source.next = (.ok q₁.current, q₁.source) := Source.next_of_read hfirst
    have hroom : p.tokens.length ≤ r.source.input.length + 1 := Nat.le_succ_of_le htokens.length_le
    obtain ⟨q, hq, hend⟩ :=
      (Place.tokenized_iff_passes hn p.endOfInput_notMem_tokens).mp htokens
    have hadvance : advance r = .ok () (r.moveTo q₁) :=
      advance_of_passes (Place.passes_singleton.mpr ⟨rfl, hn⟩)
    have hstop : q.current.startsExpression = false := by
      rw [hend]
      rfl
    refine ⟨{ r.moveTo q with supply := s }, ?_, rfl⟩
    rw [wholeExpression, room_bind, bind_of_ok hadvance]
    refine (bind_of_ok (expressionWithin_of_denotes (r := r.moveTo q₁) hd rfl rfl rfl hq
      (fun _ => hstop) hroom)).trans ?_
    rw [current_bind, if_pos (by simpa [Reader.moveTo] using hend)]
    rfl

end Read

namespace Term

open Phrase

theorem ofText_eq_ok_iff {text : String} {s s' : Supply} {t : Term} :
    ofText text s = .ok t s' ↔ ∃ p : Phrase,
      Tokenized (fun _ => false) text.toList p.tokens ∧ p.Denotes {} 0 [] s t s' := by
  rw [ofText_ok_iff_read, Read.wholeExpression_eq_ok_iff]
  rfl

/-- A text is read as a term exactly when its tokens are those of a phrase without names whose
numerals lie within the bound. There is one such phrase, and the term is what it denotes: the
literals stand for their encodings by Church, and the heads and the free variables have
identities of their own, one after the other from the supply. -/
theorem ofText_derivation (text : String) (s : Supply) :
    ((∃ t s', ofText text s = .ok t s') ↔
      ∃ p : Phrase, Tokenized (fun _ => false) text.toList p.tokens ∧ p.Plain) ∧
    (∀ t s', ofText text s = .ok t s' → ∃ p : Phrase,
      Tokenized (fun _ => false) text.toList p.tokens ∧
      (∀ q : Phrase, Tokenized (fun _ => false) text.toList q.tokens → q = p) ∧
      p.Denotes {} 0 [] s t s' ∧
      t.introduced.map Variable.id = List.range' s.id t.introduced.length) ∧
    (∀ n s, (numeral n s).1.alike
      (churchNumeral ⟨"f", true, s.id⟩ ⟨"x", true, s.id + 1⟩ n) = true) ∧
    (∀ value s, (truth value s).1.alike
      (churchTruth ⟨"a", true, s.id⟩ ⟨"b", true, s.id + 1⟩ value) = true) := by
  refine ⟨?_, ?_, numeral_alike, truth_alike⟩
  · constructor
    · rintro ⟨t, s', h⟩
      obtain ⟨p, htokens, hd⟩ := ofText_eq_ok_iff.mp h
      exact ⟨p, htokens, hd.plain⟩
    · rintro ⟨p, htokens, hplain⟩
      obtain ⟨t, s', hd⟩ := hplain.exists_denotes {} 0 [] s
      exact ⟨t, s', ofText_eq_ok_iff.mpr ⟨p, htokens, hd⟩⟩
  · intro t s' h
    obtain ⟨p, htokens, hd⟩ := ofText_eq_ok_iff.mp h
    refine ⟨p, htokens, ?_, hd, (hd.introduced_eq (by simp)).2⟩
    intro q hq
    exact Phrase.tokens_injective (hq.unique htokens)

end Term

end LambdaCalc
