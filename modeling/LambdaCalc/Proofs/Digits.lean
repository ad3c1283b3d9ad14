import LambdaCalc.Proofs.Rereading
import LambdaCalc.Proofs.Reserving
import Mathlib.Data.List.Induction
import Mathlib.Data.Nat.Digits.Defs

namespace LambdaCalc

namespace Text.Decimal

/-- The last digit counts ones, the one before it tens, and so on. -/
theorem value_eq_ofDigits (digits : List Char) :
    value digits = Nat.ofDigits 10 (digits.reverse.map fun c => c.toNat - '0'.toNat) := by
  induction digits using List.reverseRecOn with
  | nil => rfl
  | append_singleton digits c ih =>
    rw [value_append, ih, List.reverse_append, List.reverse_singleton, List.singleton_append,
      List.map_cons, Nat.ofDigits_cons, Nat.add_comm]

end Text.Decimal

/-- A run of digits is read back in front of everything that does not go on with it. -/
theorem Token.read_number {isReserved : String → Bool} {digits : String} {rest : List Char}
    (hd : Text.Decimal.isCount digits.toList = true)
    (hfree : ∀ c : Char, c.isDigit = true → isReserved c.toString = false) (hrest : EndsWord rest) :
    read isReserved (digits.toList ++ rest) = (.ok (number digits), rest) := by
  have hwritten : (Token.number digits).Written := hd
  have hread := Token.read_text hwritten fun _ => hrest
  change read (fun _ => false) (digits.toList ++ rest) = _ at hread
  cases hlist : digits.toList with
  | nil =>
    rw [hlist] at hd
    cases hd
  | cons c cs =>
    rw [hlist, List.cons_append] at hread
    simp only [hlist, Text.Decimal.isCount, Bool.and_eq_true, List.all_eq_true,
      List.forall_mem_cons] at hd
    have hword := isWordChar_of_isDigit hd.2.1
    have hblank := Text.isBlank_eq_false_of_isWordChar hword
    have hhash := ne_hash_of_isWordChar hword
    have hlower : ¬c.isLower = true := by
      intro hlower
      have hrange := toNat_of_isDigit hd.2.1
      have hrange' := toNat_of_isLower hlower
      omega
    have hsame : readFrom isReserved c (cs ++ rest) = readFrom (fun _ => false) c (cs ++ rest) :=
      readFrom_congr (hfree c hd.2.1) fun _ h => absurd h hlower
    rw [read_cons hblank hhash] at hread
    rw [List.cons_append, read_cons hblank hhash, hsame, hread]

namespace Read

variable {r : Reader} {m : Place} {digits : String} {budget steps : Nat}

/-- No budget is as good as a large one. -/
theorem clamp_eq_min : clamp budget steps = if budget = 0 then steps else min steps budget := by
  by_cases h : budget = 0
  · simp [clamp, h]
  · simp only [clamp, h, ne_eq, not_false_eq_true, true_and, if_false]
    split <;> omega

/-- A count is never turned into the request for a normal form. -/
theorem clamp_ne_zero (h : steps ≠ 0) : clamp budget steps ≠ 0 := by
  unfold clamp
  split <;> omega

/-- Why a run of digits is refused as a numeral. -/
def refusal (digits : String) : Error :=
  if Text.Decimal.value digits.toList < Text.Decimal.countBound then .numeralTooLarge digits
  else .countTooLarge digits

theorem count_error (h : Text.Decimal.countBound ≤ Text.Decimal.value digits.toList) (r : Reader) :
    count digits r = .error (.countTooLarge digits) r := by
  have hnone : Text.Decimal.bounded? digits.toList = none := by
    rw [Text.Decimal.bounded?, if_neg (Nat.not_lt.mpr h)]
  rw [count, hnone]
  rfl

theorem numeral_error (h : numeralBound < Text.Decimal.value digits.toList) (r : Reader) :
    numeral digits r = .error (refusal digits) r := by
  rw [numeral, refusal]
  split
  · next hlt =>
    have hcount : count digits r = .ok (Text.Decimal.value digits.toList) r :=
      count_eq_ok_iff.mpr ⟨⟨rfl, hlt⟩, rfl⟩
    rw [bind_of_ok hcount, if_pos h]
    rfl
  · next hge => exact bind_of_error (count_error (Nat.le_of_not_lt hge) r)

theorem expressionWithin_number {c : Char} {room : List Char} {scope : List Variable}
    (hp : r.place.Passes [.number digits] m) :
    expressionWithin (c :: room) scope r =
      let v := Text.Decimal.value digits.toList
      if v ≤ numeralBound then
        .ok (Term.numeral v r.supply).1
          { r.moveTo m with supply := (Term.numeral v r.supply).2 }
      else .error (refusal digits) (r.moveTo m) := by
  have hc : r.current = .number digits := hp.current_eq
  rw [expressionWithin, current_bind, hc]
  refine (bind_of_ok (advance_of_passes hp)).trans ?_
  dsimp only
  split
  · next hle => exact (numeral_eq_ok_iff {} 0 []).mpr ⟨_, .number hle, rfl⟩
  · next hlt => exact numeral_error (Nat.lt_of_not_le hlt) (r.moveTo m)

/-- A count that does not fit is refused before the arrow behind it is looked for. -/
theorem conversion_error (hp : r.place.Passes [.number digits] m)
    (h : Text.Decimal.countBound ≤ Text.Decimal.value digits.toList) :
    conversion r = .error (.countTooLarge digits) (r.moveTo m) := by
  have hc : r.current = .number digits := hp.current_eq
  have hcount : stepCount r = .error (.countTooLarge digits) (r.moveTo m) := by
    rw [stepCount, current_bind, hc]
    exact (bind_of_ok (advance_of_passes hp)).trans (count_error h (r.moveTo m))
  rw [conversion, current_bind, hc]
  exact bind_of_error hcount

/-- A command whose count does not fit is refused once its term is read. -/
theorem command_error {p : Phrase} {t : Term} {s : Supply} {room : List Char}
    (hp : r.place.Passes (p.tokens ++ [.number digits]) m)
    (hd : p.Denotes r.program r.patience [] r.supply t s) (hgroup : p.endsInGroup = false)
    (hroom : p.tokens.length ≤ room.length)
    (h : Text.Decimal.countBound ≤ Text.Decimal.value digits.toList) :
    command room r = .error (.countTooLarge digits) { r.moveTo m with supply := s } := by
  obtain ⟨n, hn, hm⟩ := Place.passes_append.mp hp
  have hstop : p.endsInGroup = true → n.current.startsExpression = false := by
    rw [hgroup]
    intro hgroup
    cases hgroup
  have hconversion := conversion_error (r := { r.moveTo n with supply := s }) hm h
  rw [command_of_phrase hn hd hstop hroom]
  exact bind_of_error hconversion

theorem statement_error_of_count {x : Sentence} {empty : Nat} {t : Term} {s : Supply}
    {rest : List Char} (hcount : x.suffix = .count digits) (hfits : x.Fits)
    (hcut : Cut r.source.isReserved r.source.input (x.row empty ++ [.operator .semicolon]) rest)
    (hd : x.term.Denotes r.program r.patience [] r.supply t s)
    (h : Text.Decimal.countBound ≤ Text.Decimal.value digits.toList) :
    ∃ r', statement r = .error (.countTooLarge digits) r' := by
  obtain ⟨m, q, hq, -, -, hroom, hstatement⟩ := statement_of_row hcut
  obtain ⟨assigned, p, suffix⟩ := x
  have hcount : suffix = .count digits := hcount
  subst hcount
  have hgroup : p.endsInGroup = false := by
    by_contra hgroup
    have hstarts := hfits (by simpa using hgroup)
    cases hstarts
  obtain ⟨k, hk, hrest⟩ := Place.passes_append.mp hq
  have hp : k.Passes (p.tokens ++ [.number digits] ++ [.operator .arrow]) q := by
    rw [List.append_assoc]
    exact hrest
  obtain ⟨n, hn, -⟩ := Place.passes_append.mp hp
  have hcommand := command_error (r := r.moveTo k) hn hd hgroup hroom h
  rw [hstatement]
  cases assigned with
  | none =>
    cases hk
    rw [if_neg (ne_quote_of_passes (r := r.moveTo m) hn)]
    exact ⟨_, bind_of_error hcommand⟩
  | some word =>
    have hquote : (r.moveTo m).current = .operator .quote := hq.current_eq
    obtain ⟨r', hassignment⟩ : ∃ r', assignment r.source.room (r.moveTo m) =
        .error (.countTooLarge digits) r' := by
      rw [assignment_of_header (r := r.moveTo m) hk]
      exact ⟨_, bind_of_error hcommand⟩
    rw [if_pos hquote]
    exact ⟨r', bind_of_error hassignment⟩

end Read

namespace Term

theorem ofText_digits {digits : String} (hd : Text.Decimal.isCount digits.toList = true)
    (s : Supply) :
    ofText digits s =
      let v := Text.Decimal.value digits.toList
      if v ≤ numeralBound then .ok (numeral v s).1 (numeral v s).2
      else .error (Read.refusal digits) s := by
  let r := readerOf digits s
  have hread : Token.read r.source.isReserved r.source.input = (.ok (.number digits), []) := by
    have h : Token.read (fun _ => false) (digits.toList ++ []) = _ :=
      Token.read_number hd (fun _ _ => rfl) (by simp [EndsWord])
    rw [List.append_nil] at h
    exact h
  let p : Place := ⟨.number digits, r.source.next.2⟩
  let q : Place := ⟨.endOfInput, p.source.next.2⟩
  have hfirst : r.source.next = (.ok p.current, p.source) := Source.next_of_read hread
  have hlast : p.source.next = (.ok q.current, q.source) := by
    have hrest : p.source.input = [] := by
      rw [Source.input_next, hread]
    have hnone : Token.read p.source.isReserved p.source.input = (.ok .endOfInput, []) := by
      rw [hrest]
      rfl
    exact Source.next_of_read hnone
  have hadvance : Read.advance r = .ok () (r.moveTo p) :=
    Read.advance_of_passes (Place.passes_singleton.mpr ⟨rfl, hfirst⟩)
  have hexpression : Read.expression r.source.room (r.moveTo p) = _ :=
    Read.expressionWithin_number (Place.passes_singleton.mpr ⟨rfl, hlast⟩)
  have hwhole : Read.wholeExpression r =
      (do
        let t ← Read.expression r.source.room
        if (← Read.current) = .endOfInput then return t else Read.refuse .endOfInput : Read Term)
      (r.moveTo p) := by
    rw [Read.wholeExpression, Read.room_bind]
    exact Read.bind_of_ok hadvance
  dsimp only at hexpression ⊢
  split at hexpression
  · next hle =>
    rw [if_pos hle, ofText_ok_iff_read]
    exact ⟨_, hwhole.trans (Read.bind_of_ok hexpression), rfl⟩
  · next hgt =>
    rw [if_neg hgt, ofText_error_iff_read]
    exact ⟨_, hwhole.trans (Read.bind_of_error hexpression), rfl⟩

end Term

namespace Read

/-- A run of digits, however long and with however many zeros in front, is one token. As a numeral
it stands for the number that it writes in decimal if that is at most `numeralBound`, and otherwise
it is refused before anything is drawn, be it a whole text or a part of one. In front of an arrow it
asks for as many steps, or for as many as the budget allows, and never for a normal form unless it
writes zero. It is refused there exactly if it does not fit into 64 bits. -/
theorem digits_mean_value {d : String} (hd : Text.Decimal.isCount d.toList = true) :
    let v := Nat.ofDigits 10 (d.toList.reverse.map fun c => c.toNat - '0'.toNat)
    let refused : Error := if v < 2 ^ 64 then .numeralTooLarge d else .countTooLarge d
    (∀ isReserved : String → Bool, (∀ c : Char, c.isDigit = true → isReserved c.toString = false) →
      ∀ rest, EndsWord rest →
        Token.read isReserved (d.toList ++ rest) = (.ok (.number d), rest)) ∧
    (∀ s, Term.ofText d s = if v ≤ numeralBound then .ok (Term.numeral v s).1 (Term.numeral v s).2
      else .error refused s) ∧
    (∀ (r : Reader) (q : Place) (c : Char) (room : List Char) (scope : List Variable),
      r.place.Passes [.number d] q → expressionWithin (c :: room) scope r =
        if v ≤ numeralBound then .ok (Term.numeral v r.supply).1
          { r.moveTo q with supply := (Term.numeral v r.supply).2 }
        else .error refused (r.moveTo q)) ∧
    (∀ (r : Reader) (x : Sentence) (empty : Nat) (t : Term) (s : Supply) (rest : List Char),
      x.suffix = .count d → x.Fits →
      Cut r.source.isReserved r.source.input (x.row empty ++ [.operator .semicolon]) rest →
      x.term.Denotes r.program r.patience [] r.supply t s →
      let steps := if r.budget = 0 then v else min v r.budget
      let c : Command := ⟨t, .beta ⟨steps, r.budget⟩⟩
      (v < 2 ^ 64 → ∃ r', statement r = .ok (some c) r' ∧ r'.source.input = rest ∧
        r'.program = (x.bind r.program c).setLast c) ∧
      (2 ^ 64 ≤ v → ∃ r', statement r = .error (.countTooLarge d) r') ∧
      (v ≠ 0 → steps ≠ 0)) ∧
    ∃ cause, refused.message = Error.badInput cause := by
  have hvalue := Text.Decimal.value_eq_ofDigits d.toList
  have hrefused : refusal d = if Text.Decimal.value d.toList < 2 ^ 64 then .numeralTooLarge d
    else .countTooLarge d := rfl
  dsimp only
  rw [← hvalue, ← hrefused]
  refine ⟨?_, Term.ofText_digits hd, ?_, ?_, ?_⟩
  · intro isReserved hfree rest hrest
    exact Token.read_number hd hfree hrest
  · intro r q c room scope hp
    exact expressionWithin_number hp
  · intro r x empty t s rest hcount hfits hcut hdenotes
    rw [← clamp_eq_min]
    refine ⟨?_, ?_, clamp_ne_zero⟩
    · intro hlt
      have hmeans : x.suffix.Means r.budget
          (.beta ⟨clamp r.budget (Text.Decimal.value d.toList), r.budget⟩) := by
        rw [hcount]
        exact .count hlt
      obtain ⟨r', hread, hrest, -, hprogram⟩ := statement_of_sentence hfits hcut hdenotes hmeans
      exact ⟨r', hread, hrest, hprogram⟩
    · intro hge
      exact statement_error_of_count hcount hfits hcut hdenotes hge
  · rw [refusal]
    split
    · exact ⟨_, rfl⟩
    · exact ⟨_, rfl⟩

/-- One above the largest numeral, with a zero in front, and one above the largest count. -/
theorem digits_mean_value_aboveBounds :
    Text.Decimal.isCount "010001".toList = true ∧
      Text.Decimal.isCount "18446744073709551616".toList = true ∧
      Term.ofText "010001" ⟨3, 5⟩ = .error (.numeralTooLarge "010001") ⟨3, 5⟩ ∧
      Term.ofText "18446744073709551616" ⟨3, 5⟩ =
        .error (.countTooLarge "18446744073709551616") ⟨3, 5⟩ := by
  have hnumeral : Text.Decimal.isCount "010001".toList = true := by decide
  have hcount : Text.Decimal.isCount "18446744073709551616".toList = true := by decide
  have hnumeralText := (digits_mean_value hnumeral).2.1 ⟨3, 5⟩
  have hcountText := (digits_mean_value hcount).2.1 ⟨3, 5⟩
  rw [← Text.Decimal.value_eq_ofDigits] at hnumeralText hcountText
  exact ⟨hnumeral, hcount, hnumeralText, hcountText⟩

end Read

end LambdaCalc
