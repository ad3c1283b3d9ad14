import LambdaCalc.Proofs.Grammar
import LambdaCalc.Proofs.Signals

namespace LambdaCalc

/-- What stands between the term of a command and its semicolon. -/
inductive Suffix
  | none
  | step
  | count (digits : String)
  | truth (value : Bool)
  | alpha (old new : String)
  deriving DecidableEq

namespace Suffix

def tokens : Suffix → List Token
  | none => []
  | step => [.operator .arrow]
  | count digits => [.number digits, .operator .arrow]
  | truth value => [.truth value, .operator .arrow]
  | alpha old new => [.identifier old, .operator .arrow, .identifier new]

/-- Whether it begins as an expression can begin. -/
def startsExpression : Suffix → Bool
  | none | step => false
  | count _ | truth _ | alpha _ _ => true

/-- The conversion that is asked for. A count has to fit into 64 bits. -/
inductive Means (budget : Nat) : Suffix → Conversion → Prop
  | none : Means budget none .identity
  | step : Means budget step (.beta ⟨Read.clamp budget 1, budget⟩)
  | count {digits : String} :
      Text.Decimal.value digits.toList < Text.Decimal.countBound →
      Means budget (count digits)
        (.beta ⟨Read.clamp budget (Text.Decimal.value digits.toList), budget⟩)
  | truth {value : Bool} :
      Means budget (truth value) (.beta ⟨Read.clamp budget value.toNat, budget⟩)
  | alpha {old new : String} : Means budget (alpha old new) (.alpha old new)

theorem endOfInput_notMem_tokens (x : Suffix) : .endOfInput ∉ x.tokens := by
  cases x <;> simp [tokens]

end Suffix

/-- A statement up to its semicolon. -/
structure Sentence where
  assigned : Option String
  term : Phrase
  suffix : Suffix
  deriving DecidableEq

namespace Sentence

/-- The tokens that bind a name. -/
def header : Option String → List Token
  | none => []
  | some word => [.operator .quote, .name word, .operator .quote, .operator .equals]

def tokens (x : Sentence) : List Token := header x.assigned ++ (x.term.tokens ++ x.suffix.tokens)

/-- The term ends where it seems to: brackets that only group are followed by nothing with which an
expression can begin. -/
def Fits (x : Sentence) : Prop := x.term.endsInGroup = true → x.suffix.startsExpression = false

/-- Only an assignment binds a name. -/
def bind (x : Sentence) (p : Program) (c : Command) : Program :=
  match x.assigned with
  | none => p
  | some word => p.insert word c

theorem endOfInput_notMem_tokens (x : Sentence) : .endOfInput ∉ x.tokens := by
  have hheader : .endOfInput ∉ header x.assigned := by
    cases x.assigned <;> simp [header]
  simp [tokens, hheader, x.term.endOfInput_notMem_tokens, x.suffix.endOfInput_notMem_tokens]

/-- No sentence begins with a token at which a statement is empty or over. -/
theorem exists_tokens_eq_cons (x : Sentence) :
    ∃ first rest, x.tokens = first :: rest ∧ first ≠ .operator .semicolon ∧
      (∀ word, first ≠ .reserved word) ∧ first ≠ .endOfInput := by
  obtain ⟨assigned, p, suffix⟩ := x
  cases assigned with
  | some word => exact ⟨_, _, rfl, by simp, by simp, by simp⟩
  | none =>
    obtain ⟨first, rest, hp, hfirst⟩ := p.exists_tokens_eq_cons
    refine ⟨first, rest ++ suffix.tokens, by simp [tokens, header, hp], ?_, ?_, ?_⟩
    · rintro rfl
      cases hfirst
    · rintro word rfl
      cases hfirst
    · rintro rfl
      cases hfirst

/-- The tokens of a statement, with those of the empty statements in front of it. -/
def row (x : Sentence) (empty : Nat) : List Token :=
  List.replicate empty (.operator .semicolon) ++ x.tokens

end Sentence

namespace Place

/-- Moving on over tokens is cutting off those behind the first one, and the one where it ends. -/
theorem cut_iff_passes {p : Place} {last : Token} {tokens : List Token} {rest : List Char}
    (htokens : .endOfInput ∉ tokens) (hlast : last ≠ .endOfInput) :
    Cut p.source.isReserved p.source.input (tokens ++ [last]) rest ↔
      ∃ q, p.Passes (p.current :: tokens) q ∧ q.current = last ∧ q.source.input = rest := by
  induction tokens generalizing p with
  | nil =>
    simp only [List.nil_append, Cut.cons_iff, passes_singleton, true_and]
    constructor
    · rintro ⟨behind, hr, -, hrest⟩
      cases hrest
      have hread := Source.next_of_read hr
      exact ⟨⟨last, p.source.next.2⟩, hread, rfl, by rw [Source.input_next, hr]⟩
    · rintro ⟨q, hn, rfl, rfl⟩
      exact ⟨_, Source.read_of_next hn, hlast, .nil _⟩
  | cons token tokens ih =>
    rw [List.mem_cons, not_or] at htokens
    rw [List.cons_append, Cut.cons_iff]
    constructor
    · rintro ⟨behind, hr, -, hrest⟩
      let m : Place := ⟨token, p.source.next.2⟩
      have hn : p.source.next = (.ok m.current, m.source) := Source.next_of_read hr
      obtain rfl : m.source.input = behind := by rw [Source.input_next, hr]
      obtain ⟨q, hq, hlast, hrest⟩ := (ih (p := m) htokens.2).mp hrest
      exact ⟨q, .cons hn hq, hlast, hrest⟩
    · rintro ⟨q, hq, hlast, hrest⟩
      cases hq with
      | @cons _ m _ _ hn hq =>
        obtain rfl : m.current = token := hq.current_eq
        have hcut := (ih (p := m) htokens.2).mpr ⟨q, hq, hlast, hrest⟩
        rw [Source.isReserved_of_next hn] at hcut
        exact ⟨_, Source.read_of_next hn, htokens.1 ∘ Eq.symm, hcut⟩

end Place

/-- The same reader in front of another text. -/
def Reader.withInput (r : Reader) (input : List Char) : Reader :=
  { r with source := { r.source with input := input } }

/-- What the reader `r` reads next is the sentence, behind some empty statements. It stands for the
command, and `r'` is left. -/
structure Reader.Reads (r : Reader) (x : Sentence) (empty : Nat) (c : Command) (r' : Reader) :
    Prop where
  fits : x.Fits
  cut : Cut r.source.isReserved r.source.input (x.row empty ++ [.operator .semicolon])
    r'.source.input
  denotes : x.term.Denotes r.program r.patience [] r.supply c.term r'.supply
  means : x.suffix.Means r.budget c.conversion
  program : r'.program = (x.bind r.program c).setLast c

namespace Read

variable {r r' : Reader} {c : Command} {q : Place}

theorem name_eq_ok_iff {wanted : Expectation} {word : String} :
    name wanted r = .ok word r' ↔
      ∃ q, r.place.Passes [.name word] q ∧ r' = r.moveTo q := by
  constructor
  · intro h
    rw [name, current_bind] at h
    generalize hc : r.current = token at h
    split at h
    · next w =>
      obtain ⟨_, r₁, ha, hw⟩ := bind_eq_ok h
      cases hw
      rw [advance_eq_ok_iff, hc] at ha
      exact ha
    · cases h
  · rintro ⟨q, hq, rfl⟩
    have hc : r.current = .name word := hq.current_eq
    rw [name, current_bind, hc]
    exact bind_of_ok (advance_of_passes hq)

theorem suffix_of_stepCount {n : Nat} (h : stepCount r = .ok n r') :
    ∃ (x : Suffix) (m : Place), r.place.Passes (x.tokens.dropLast) m ∧ r' = r.moveTo m ∧
      x.tokens = x.tokens.dropLast ++ [.operator .arrow] ∧
      ∀ budget, x.Means budget (.beta ⟨clamp budget n, budget⟩) := by
  rw [stepCount, current_bind] at h
  generalize hc : r.current = token at h
  split at h
  case h_1 digits =>
    obtain ⟨_, r₁, ha, hn⟩ := bind_eq_ok h
    obtain ⟨m, hm, rfl⟩ := advance_eq_ok_iff.mp ha
    obtain ⟨⟨rfl, hlt⟩, rfl⟩ := count_eq_ok_iff.mp hn
    rw [hc] at hm
    exact ⟨.count digits, m, hm, rfl, rfl, fun _ => .count hlt⟩
  case h_2 value =>
    obtain ⟨_, r₁, ha, hn⟩ := bind_eq_ok h
    obtain ⟨m, hm, rfl⟩ := advance_eq_ok_iff.mp ha
    cases hn
    rw [hc] at hm
    exact ⟨.truth value, m, hm, rfl, rfl, fun _ => .truth⟩
  case h_3 =>
    cases h
    exact ⟨.step, r.place, .nil _, rfl, rfl, fun _ => .step⟩

theorem suffix_of_beta {k : Conversion} (h : beta r = .ok k r') :
    ∃ (x : Suffix) (q : Place), r.place.Passes x.tokens q ∧ x.Means r.budget k ∧
      r' = r.moveTo q := by
  obtain ⟨n, r₁, hn, h⟩ := bind_eq_ok h
  obtain ⟨_, r₂, harrow, h⟩ := bind_eq_ok h
  obtain ⟨x, m, hm, rfl, htokens, hmeans⟩ := suffix_of_stepCount hn
  obtain ⟨q, hq, rfl⟩ := expect_eq_ok_iff.mp harrow
  cases h
  refine ⟨x, q, ?_, hmeans _, rfl⟩
  rw [htokens]
  exact Place.passes_append.mpr ⟨m, hm, hq⟩

theorem suffix_of_alpha {k : Conversion} (h : alpha r = .ok k r') :
    ∃ (x : Suffix) (q : Place), r.place.Passes x.tokens q ∧ x.Means r.budget k ∧
      r' = r.moveTo q := by
  obtain ⟨old, r₁, h₁, h⟩ := bind_eq_ok h
  obtain ⟨_, r₂, h₂, h⟩ := bind_eq_ok h
  obtain ⟨new, r₃, h₃, h⟩ := bind_eq_ok h
  obtain ⟨q₁, hq₁, rfl⟩ := identifier_eq_ok_iff.mp h₁
  obtain ⟨q₂, hq₂, rfl⟩ := expect_eq_ok_iff.mp h₂
  obtain ⟨q₃, hq₃, rfl⟩ := identifier_eq_ok_iff.mp h₃
  cases h
  exact ⟨.alpha old new, q₃, Place.passes_cons.mpr ⟨q₁, hq₁, Place.passes_cons.mpr ⟨q₂, hq₂, hq₃⟩⟩,
    .alpha, rfl⟩

theorem suffix_of_conversion {k : Conversion} (h : conversion r = .ok k r') :
    ∃ (x : Suffix) (q : Place), r.place.Passes x.tokens q ∧ x.Means r.budget k ∧
      r' = r.moveTo q := by
  rw [conversion, current_bind] at h
  generalize r.current = token at h
  split at h
  case h_1 => exact suffix_of_beta h
  case h_2 => exact suffix_of_beta h
  case h_3 => exact suffix_of_beta h
  case h_4 => exact suffix_of_alpha h
  case h_5 =>
    cases h
    exact ⟨.none, r.place, .nil _, .none, rfl⟩

theorem beta_of_stepCount {n : Nat} {m : Place} (h : stepCount r = .ok n (r.moveTo m))
    (hm : m.Passes [.operator .arrow] q) :
    beta r = .ok (.beta ⟨clamp r.budget n, r.budget⟩) (r.moveTo q) := by
  have harrow : expect .arrow .beta (r.moveTo m) = .ok () (r.moveTo q) :=
    expect_eq_ok_iff.mpr ⟨q, hm, rfl⟩
  rw [beta, bind_of_ok h]
  exact bind_of_ok harrow

theorem alpha_of_passes {old new : String} (hp : r.place.Passes (Suffix.alpha old new).tokens q) :
    alpha r = .ok (.alpha old new) (r.moveTo q) := by
  obtain ⟨q₁, h₁, hp⟩ := Place.passes_cons.mp hp
  obtain ⟨q₂, h₂, h₃⟩ := Place.passes_cons.mp hp
  have hold : identifier .alpha r = .ok old (r.moveTo q₁) :=
    identifier_eq_ok_iff.mpr ⟨q₁, h₁, rfl⟩
  have harrow : expect .arrow .alpha (r.moveTo q₁) = .ok () (r.moveTo q₂) :=
    expect_eq_ok_iff.mpr ⟨q₂, h₂, rfl⟩
  have hnew : identifier .alpha (r.moveTo q₂) = .ok new (r.moveTo q) :=
    identifier_eq_ok_iff.mpr ⟨q, h₃, rfl⟩
  rw [alpha, bind_of_ok hold]
  refine (bind_of_ok harrow).trans ?_
  exact bind_of_ok hnew

theorem conversion_of_suffix {x : Suffix} {k : Conversion} (hx : x.Means r.budget k)
    (hp : r.place.Passes x.tokens q) (hq : q.current = .operator .semicolon) :
    conversion r = .ok k (r.moveTo q) := by
  cases hx with
  | none =>
    cases hp
    have hc : r.current = .operator .semicolon := hq
    rw [conversion, current_bind, hc]
    rfl
  | step =>
    have hc : r.current = .operator .arrow := hp.current_eq
    have hcount : stepCount r = .ok 1 (r.moveTo r.place) := by
      rw [stepCount, current_bind, hc]
      rfl
    rw [conversion, current_bind, hc]
    exact beta_of_stepCount hcount hp
  | @count digits hlt =>
    have hc : r.current = .number digits := hp.current_eq
    obtain ⟨m, hm, hp⟩ := Place.passes_cons.mp hp
    have hvalue : count digits (r.moveTo m) = .ok _ (r.moveTo m) :=
      count_eq_ok_iff.mpr ⟨⟨rfl, hlt⟩, rfl⟩
    have hcount : stepCount r = .ok (Text.Decimal.value digits.toList) (r.moveTo m) := by
      rw [stepCount, current_bind, hc]
      exact (bind_of_ok (advance_of_passes hm)).trans hvalue
    rw [conversion, current_bind, hc]
    exact beta_of_stepCount hcount hp
  | @truth value =>
    have hc : r.current = .truth value := hp.current_eq
    obtain ⟨m, hm, hp⟩ := Place.passes_cons.mp hp
    have hcount : stepCount r = .ok value.toNat (r.moveTo m) := by
      rw [stepCount, current_bind, hc]
      exact bind_of_ok (advance_of_passes hm)
    rw [conversion, current_bind, hc]
    exact beta_of_stepCount hcount hp
  | @alpha old new =>
    have hc : r.current = .identifier old := hp.current_eq
    rw [conversion, current_bind, hc]
    exact alpha_of_passes hp

theorem sentence_of_command {room : List Char} (h : command room r = .ok c r')
    (hend : r'.current = .operator .semicolon) :
    ∃ (p : Phrase) (x : Suffix) (q : Place), r.place.Passes (p.tokens ++ x.tokens) q ∧
      p.Denotes r.program r.patience [] r.supply c.term r'.supply ∧
      x.Means r.budget c.conversion ∧ r' = { r.moveTo q with supply := r'.supply } ∧
      (p.endsInGroup = true → x.startsExpression = false) := by
  obtain ⟨t, r₁, ht, h⟩ := bind_eq_ok h
  obtain ⟨k, r₂, hk, h⟩ := bind_eq_ok h
  cases h
  obtain ⟨p, m, s, hm, hd, rfl, hgroup⟩ := denotes_of_expressionWithin ht
  obtain ⟨x, q, hq, hx, rfl⟩ := suffix_of_conversion hk
  refine ⟨p, x, q, Place.passes_append.mpr ⟨m, hm, hq⟩, hd, hx, rfl, fun hp => ?_⟩
  have hcurrent := hgroup hp
  cases x with
  | none => rfl
  | step => rfl
  | count digits =>
    have hc : m.current = .number digits := hq.current_eq
    rw [hc] at hcurrent
    cases hcurrent
  | truth value =>
    have hc : m.current = .truth value := hq.current_eq
    rw [hc] at hcurrent
    cases hcurrent
  | alpha old new =>
    have hc : m.current = .identifier old := hq.current_eq
    rw [hc] at hcurrent
    cases hcurrent

/-- Behind its term a command goes on with the conversion. -/
theorem command_of_phrase {p : Phrase} {t : Term} {s : Supply} {m : Place} {room : List Char}
    (hp : r.place.Passes p.tokens m) (hd : p.Denotes r.program r.patience [] r.supply t s)
    (hstop : p.endsInGroup = true → m.current.startsExpression = false)
    (hroom : p.tokens.length ≤ room.length) :
    command room r = (do return ⟨t, ← conversion⟩ : Read Command)
      { r.moveTo m with supply := s } := by
  obtain ⟨c, room, rfl, hroom⟩ := exists_room p hroom
  have hterm : expression (c :: room) r = .ok t { r.moveTo m with supply := s } :=
    expressionWithin_of_denotes hd rfl rfl rfl hp hstop hroom
  rw [command]
  exact bind_of_ok hterm

theorem command_of_sentence {p : Phrase} {x : Suffix} {t : Term} {k : Conversion} {s : Supply}
    {room : List Char} (hp : r.place.Passes (p.tokens ++ x.tokens) q)
    (hd : p.Denotes r.program r.patience [] r.supply t s) (hx : x.Means r.budget k)
    (hfits : p.endsInGroup = true → x.startsExpression = false)
    (hq : q.current = .operator .semicolon) (hroom : p.tokens.length ≤ room.length) :
    command room r = .ok ⟨t, k⟩ { r.moveTo q with supply := s } := by
  obtain ⟨m, hm, hq'⟩ := Place.passes_append.mp hp
  have hstop (hgroup : p.endsInGroup = true) : m.current.startsExpression = false := by
    have hx := hfits hgroup
    cases x with
    | none =>
      cases hq'
      rw [hq]
      rfl
    | step =>
      rw [hq'.current_eq]
      rfl
    | _ => cases hx
  have hconversion : conversion { r.moveTo m with supply := s } =
      .ok k { r.moveTo q with supply := s } := conversion_of_suffix hx hq' hq
  rw [command_of_phrase hm hd hstop hroom]
  exact bind_of_ok hconversion

theorem sentence_of_assignment {room : List Char} (h : assignment room r = .ok c r')
    (hquote : r.current = .operator .quote) (hend : r'.current = .operator .semicolon) :
    ∃ (word : String) (p : Phrase) (x : Suffix) (q : Place),
      r.place.Passes (Sentence.header (some word) ++ (p.tokens ++ x.tokens)) q ∧
      p.Denotes r.program r.patience [] r.supply c.term r'.supply ∧
      x.Means r.budget c.conversion ∧
      r' = { r.moveTo q with supply := r'.supply, program := r.program.insert word c } ∧
      (p.endsInGroup = true → x.startsExpression = false) := by
  obtain ⟨word, r₁, hb, rfl⟩ := assignment_ok h
  obtain ⟨_, _, h₁, hb⟩ := bind_eq_ok hb
  obtain ⟨_, _, h₂, hb⟩ := bind_eq_ok hb
  obtain ⟨_, _, h₃, hb⟩ := bind_eq_ok hb
  obtain ⟨_, _, h₄, hb⟩ := bind_eq_ok hb
  obtain ⟨_, _, h₅, h₆⟩ := bind_eq_ok hb
  cases h₆
  obtain ⟨q₁, hq₁, rfl⟩ := advance_eq_ok_iff.mp h₁
  obtain ⟨q₂, hq₂, rfl⟩ := name_eq_ok_iff.mp h₂
  obtain ⟨q₃, hq₃, rfl⟩ := expect_eq_ok_iff.mp h₃
  obtain ⟨q₄, hq₄, rfl⟩ := expect_eq_ok_iff.mp h₄
  obtain ⟨p, x, q, hq, hd, hx, hr, hfits⟩ := sentence_of_command h₅ hend
  rw [hquote] at hq₁
  refine ⟨word, p, x, q, ?_, hd, hx, ?_, hfits⟩
  · exact Place.passes_cons.mpr ⟨q₁, hq₁, Place.passes_cons.mpr ⟨q₂, hq₂,
      Place.passes_cons.mpr ⟨q₃, hq₃, Place.passes_cons.mpr ⟨q₄, hq₄, hq⟩⟩⟩⟩
  · rw [hr]
    rfl

/-- Behind the tokens that bind its name an assignment goes on with the command. -/
theorem assignment_of_header {word : String} {room : List Char}
    (hp : r.place.Passes (Sentence.header (some word)) q) :
    assignment room r = (do
        let c ← command room
        modify fun r => { r with program := r.program.insert word c }
        return c : Read Command) (r.moveTo q) := by
  obtain ⟨q₁, h₁, hp⟩ := Place.passes_cons.mp hp
  obtain ⟨q₂, h₂, hp⟩ := Place.passes_cons.mp hp
  obtain ⟨q₃, h₃, h₄⟩ := Place.passes_cons.mp hp
  have hname : name .assignedName (r.moveTo q₁) = .ok word (r.moveTo q₂) :=
    name_eq_ok_iff.mpr ⟨q₂, h₂, rfl⟩
  have hclosing : expect .quote .closingQuote (r.moveTo q₂) = .ok () (r.moveTo q₃) :=
    expect_eq_ok_iff.mpr ⟨q₃, h₃, rfl⟩
  have hequals : expect .equals .equalsSign (r.moveTo q₃) = .ok () (r.moveTo q) :=
    expect_eq_ok_iff.mpr ⟨q, h₄, rfl⟩
  rw [assignment]
  refine (bind_of_ok (advance_of_passes h₁)).trans ?_
  refine (bind_of_ok hname).trans ?_
  refine (bind_of_ok hclosing).trans ?_
  exact bind_of_ok hequals

theorem assignment_of_sentence {word : String} {p : Phrase} {x : Suffix} {t : Term}
    {k : Conversion} {s : Supply} {room : List Char}
    (hp : r.place.Passes (Sentence.header (some word) ++ (p.tokens ++ x.tokens)) q)
    (hd : p.Denotes r.program r.patience [] r.supply t s) (hx : x.Means r.budget k)
    (hfits : p.endsInGroup = true → x.startsExpression = false)
    (hq : q.current = .operator .semicolon) (hroom : p.tokens.length ≤ room.length) :
    assignment room r = .ok ⟨t, k⟩
      { r.moveTo q with supply := s, program := r.program.insert word ⟨t, k⟩ } := by
  obtain ⟨m, hm, hp⟩ := Place.passes_append.mp hp
  have hcommand := command_of_sentence (r := r.moveTo m) hp hd hx hfits hq hroom
  rw [assignment_of_header hm]
  exact bind_of_ok hcommand

theorem semicolons_of_firstToken {room : List Char} {token : Token}
    (h : firstToken room r = .ok token r') :
    ∃ (empty : Nat) (q : Place),
      r.place.Passes (r.current :: List.replicate empty (.operator .semicolon)) q ∧
        r' = r.moveTo q ∧ q.current = token ∧ token ≠ .operator .semicolon := by
  induction room generalizing r with
  | nil => cases h
  | cons c room ih =>
    obtain ⟨_, r₁, ha, -⟩ := bind_eq_ok h
    rw [firstToken_of_advance ha] at h
    obtain ⟨m, hm, rfl⟩ := advance_eq_ok_iff.mp ha
    split at h
    · next hc =>
      obtain ⟨empty, q, hq, rfl, hcurrent⟩ := ih h
      refine ⟨empty + 1, q, Place.passes_cons.mpr ⟨m, hm, ?_⟩, rfl, hcurrent⟩
      rw [hc] at hq
      exact hq
    · next hc =>
      cases h
      exact ⟨0, m, hm, rfl, rfl, hc⟩

theorem firstToken_of_semicolons {room : List Char} {empty : Nat}
    (hp : r.place.Passes (r.current :: List.replicate empty (.operator .semicolon)) q)
    (hq : q.current ≠ .operator .semicolon) (hroom : empty < room.length) :
    firstToken room r = .ok q.current (r.moveTo q) := by
  induction empty generalizing r room with
  | zero =>
    obtain ⟨c, room, rfl⟩ := List.exists_cons_of_length_pos hroom
    rw [firstToken_of_advance (advance_of_passes hp)]
    exact if_neg hq
  | succ empty ih =>
    obtain ⟨c, room, rfl⟩ := List.exists_cons_of_length_pos (Nat.zero_lt_of_lt hroom)
    obtain ⟨m, hm, hp⟩ := Place.passes_cons.mp hp
    have hc : m.current = .operator .semicolon := hp.current_eq
    have hp' : m.Passes (m.current :: List.replicate empty (.operator .semicolon)) q := by
      rw [hc]
      exact hp
    have hmoved : (r.moveTo m).current = .operator .semicolon := hc
    rw [firstToken_of_advance (advance_of_passes hm), if_pos hmoved]
    exact ih (r := r.moveTo m) hp' (Nat.lt_of_succ_lt_succ hroom)

theorem sentence_of_closed {room : List Char}
    (h : (if r.current = .operator .quote then closed (assignment room)
      else closed (command room)) r = .ok (some c) r') :
    ∃ (x : Sentence) (q : Place), r.place.Passes x.tokens q ∧ q.current = .operator .semicolon ∧
      x.Fits ∧ x.term.Denotes r.program r.patience [] r.supply c.term r'.supply ∧
      x.suffix.Means r.budget c.conversion ∧ r'.source = q.source ∧
      r'.program = (x.bind r.program c).setLast c := by
  split at h
  · next hquote =>
    obtain ⟨c', r₁, hw, hc, he, rfl⟩ := closed_ok h
    cases he
    obtain ⟨word, p, x, q, hq, hd, hx, hr, hfits⟩ := sentence_of_assignment hw hquote hc
    rw [hr] at hc
    exact ⟨⟨some word, p, x⟩, q, hq, hc, hfits, hd, hx, by rw [hr]; rfl, by rw [hr]; rfl⟩
  · obtain ⟨c', r₁, hw, hc, he, rfl⟩ := closed_ok h
    cases he
    obtain ⟨p, x, q, hq, hd, hx, hr, hfits⟩ := sentence_of_command hw hc
    rw [hr] at hc
    exact ⟨⟨none, p, x⟩, q, hq, hc, hfits, hd, hx, by rw [hr]; rfl, by rw [hr]; rfl⟩

/-- No term begins with a quote. -/
theorem ne_quote_of_passes {p : Phrase} {tokens : List Token}
    (hp : r.place.Passes (p.tokens ++ tokens) q) : r.current ≠ .operator .quote := by
  obtain ⟨first, rest, hfirst, hstarts⟩ := p.exists_tokens_eq_cons
  rw [hfirst] at hp
  have hc : r.current = first := hp.current_eq
  intro hquote
  rw [← hc, hquote] at hstarts
  cases hstarts

theorem closed_of_sentence {x : Sentence} {k : Conversion} {t : Term} {s : Supply}
    {room : List Char} (hp : r.place.Passes x.tokens q) (hfits : x.Fits)
    (hd : x.term.Denotes r.program r.patience [] r.supply t s) (hx : x.suffix.Means r.budget k)
    (hq : q.current = .operator .semicolon) (hroom : x.term.tokens.length ≤ room.length) :
    ∃ r', (if r.current = .operator .quote then closed (assignment room)
        else closed (command room)) r = .ok (some ⟨t, k⟩) r' ∧ r'.source = q.source ∧
      r'.supply = s ∧ r'.program = (x.bind r.program ⟨t, k⟩).setLast ⟨t, k⟩ := by
  obtain ⟨assigned, p, suffix⟩ := x
  cases assigned with
  | none =>
    have hcommand := command_of_sentence hp hd hx hfits hq hroom
    rw [if_neg (ne_quote_of_passes hp)]
    exact ⟨_, closed_of_ok hcommand hq, rfl, rfl, rfl⟩
  | some word =>
    have hquote : r.current = .operator .quote := hp.current_eq
    have hassignment := assignment_of_sentence hp hd hx hfits hq hroom
    rw [if_pos hquote]
    exact ⟨_, closed_of_ok hassignment hq, rfl, rfl, rfl⟩

/-- A statement that is neither empty nor at the end of the text goes on from its first token. -/
theorem statement_of_firstToken {first : Token} {r₁ : Reader}
    (h : firstToken r.source.room r = .ok first r₁) (hc : r₁.current = first)
    (hreserved : ∀ word, first ≠ .reserved word) (hend : first ≠ .endOfInput) :
    statement r = (if r₁.current = .operator .quote then closed (assignment r.source.room)
      else closed (command r.source.room)) r₁ := by
  rw [statement, room_bind, bind_of_ok h, hc]
  split
  · next word => exact absurd rfl (hreserved word)
  · exact absurd rfl hend
  · rfl

/-- A statement that is read was written as some sentence, and its command is what the sentence
stands for. -/
theorem sentence_of_statement (h : statement r = .ok (some c) r') :
    ∃ (x : Sentence) (empty : Nat), r.Reads x empty c r' := by
  obtain ⟨room, r₀, hroom, h'⟩ := bind_eq_ok h
  cases hroom
  obtain ⟨first, r₁, hf, -⟩ := bind_eq_ok h'
  obtain ⟨empty, m, hm, rfl, hc, -⟩ := semicolons_of_firstToken hf
  have hreserved : ∀ word, first ≠ .reserved word := by
    rintro word rfl
    rw [statement, room_bind, bind_of_ok hf] at h
    cases h
  have hend : first ≠ .endOfInput := by
    rintro rfl
    rw [statement, room_bind, bind_of_ok hf] at h
    cases h
  rw [statement_of_firstToken hf hc hreserved hend] at h
  obtain ⟨x, q, hq, hsemicolon, hfits, hd, hx, hsource, hprogram⟩ := sentence_of_closed h
  have hpasses : r.place.Passes (r.current :: x.row empty) q :=
    Place.passes_append.mpr ⟨m, hm, hq⟩
  have hrow : .endOfInput ∉ x.row empty := by
    simp [Sentence.row, x.endOfInput_notMem_tokens]
  refine ⟨x, empty, hfits, ?_, hd, hx, hprogram⟩
  rw [hsource]
  exact (Place.cut_iff_passes (p := r.place) hrow (by simp)).mpr ⟨q, hpasses, hsemicolon, rfl⟩

/-- A statement is read from the first token of its sentence on. -/
theorem statement_of_row {x : Sentence} {empty : Nat} {rest : List Char}
    (hcut : Cut r.source.isReserved r.source.input (x.row empty ++ [.operator .semicolon]) rest) :
    ∃ m q, m.Passes x.tokens q ∧ q.current = .operator .semicolon ∧ q.source.input = rest ∧
      x.term.tokens.length ≤ r.source.room.length ∧
      statement r =
        (if (r.moveTo m).current = .operator .quote then closed (assignment r.source.room)
          else closed (command r.source.room)) (r.moveTo m) := by
  have hrow : .endOfInput ∉ x.row empty := by
    simp [Sentence.row, x.endOfInput_notMem_tokens]
  have hlength := hcut.length_le
  simp only [Sentence.row, Sentence.tokens, List.length_append, List.length_replicate] at hlength
  obtain ⟨q, hq, hsemicolon, hrest⟩ :=
    (Place.cut_iff_passes (p := r.place) hrow (by simp)).mp hcut
  have hpasses : r.place.Passes
      ((r.current :: List.replicate empty (.operator .semicolon)) ++ x.tokens) q := hq
  obtain ⟨m, hm, hq⟩ := Place.passes_append.mp hpasses
  obtain ⟨first, tail, hfirst, hstops⟩ := x.exists_tokens_eq_cons
  have hc : m.current = first := by
    rw [hfirst] at hq
    exact hq.current_eq
  have hf : firstToken r.source.room r = .ok m.current (r.moveTo m) :=
    firstToken_of_semicolons hm (by rw [hc]; exact hstops.1)
      (by simp only [Source.room, List.length_cons]; omega)
  refine ⟨m, q, hq, hsemicolon, hrest, ?_, ?_⟩
  · simp only [Source.room, List.length_cons]
    omega
  · exact statement_of_firstToken hf rfl (by rw [hc]; exact hstops.2.1)
      (by rw [hc]; exact hstops.2.2)

/-- Every sentence that stands for something is read as a statement, whatever follows it. -/
theorem statement_of_sentence {x : Sentence} {empty : Nat} {k : Conversion} {t : Term} {s : Supply}
    {rest : List Char} (hfits : x.Fits)
    (hcut : Cut r.source.isReserved r.source.input (x.row empty ++ [.operator .semicolon]) rest)
    (hd : x.term.Denotes r.program r.patience [] r.supply t s) (hx : x.suffix.Means r.budget k) :
    ∃ r', statement r = .ok (some ⟨t, k⟩) r' ∧ r'.source.input = rest ∧ r'.supply = s ∧
      r'.program = (x.bind r.program ⟨t, k⟩).setLast ⟨t, k⟩ := by
  obtain ⟨m, q, hq, hsemicolon, rfl, hroom, hstatement⟩ := statement_of_row hcut
  obtain ⟨r', hr', hsource, hsupply, hprogram⟩ :=
    closed_of_sentence (r := r.moveTo m) hq hfits hd hx hsemicolon hroom
  refine ⟨r', hstatement.trans hr', ?_, hsupply, hprogram⟩
  rw [hsource]

end Read

end LambdaCalc
