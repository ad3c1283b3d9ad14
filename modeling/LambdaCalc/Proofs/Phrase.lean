import LambdaCalc.Reader.Expression
import LambdaCalc.Proofs.Building
import Mathlib.Logic.Function.Iterate

namespace LambdaCalc

/-- A derivation by the rules

    expression := '\' IDENTIFIER '.' expression
                | '(' expression ')' expression?
                | IDENTIFIER | LITERAL | NAME -/
inductive Phrase
  | identifier (word : String)
  | number (digits : String)
  | truth (value : Bool)
  | name (word : String)
  | lambda (word : String) (body : Phrase)
  | group (inner : Phrase)
  | apply (fn arg : Phrase)
  deriving DecidableEq

namespace Phrase

def tokens : Phrase → List Token
  | identifier word => [.identifier word]
  | number digits => [.number digits]
  | truth value => [.truth value]
  | name word => [.name word]
  | lambda word body =>
      .operator .lambda :: .identifier word :: .operator .dot :: body.tokens
  | group inner => .operator .openBracket :: (inner.tokens ++ [.operator .closeBracket])
  | apply fn arg =>
      .operator .openBracket :: (fn.tokens ++ .operator .closeBracket :: arg.tokens)

/-- The last bracket is one that only groups, unless an expression follows it. -/
def endsInGroup : Phrase → Bool
  | lambda _ body => body.endsInGroup
  | group _ => true
  | apply _ arg => arg.endsInGroup
  | _ => false

theorem exists_tokens_eq_cons (p : Phrase) :
    ∃ first rest, p.tokens = first :: rest ∧ first.startsExpression = true := by
  cases p <;> exact ⟨_, _, rfl, rfl⟩

theorem tokens_ne_nil (p : Phrase) : p.tokens ≠ [] := by
  obtain ⟨first, rest, hp, -⟩ := p.exists_tokens_eq_cons
  simp [hp]

theorem endOfInput_notMem_tokens (p : Phrase) : .endOfInput ∉ p.tokens := by
  induction p <;> simp_all [tokens]

/-- No expression begins with these tokens. -/
def NoneBegins (tokens : List Token) : Prop :=
  ∀ token ∈ tokens.head?, token.startsExpression = false

theorem not_noneBegins (p : Phrase) (rest : List Token) : ¬NoneBegins (p.tokens ++ rest) := by
  obtain ⟨first, tail, hp, hfirst⟩ := p.exists_tokens_eq_cons
  intro h
  have hnot := h first (by simp [hp])
  simp [hfirst] at hnot

/-- A phrase ends where nothing follows that could go on with it. -/
theorem tokens_append_inj {p q : Phrase} {rest rest' : List Token} (hr : NoneBegins rest)
    (hr' : NoneBegins rest') (h : p.tokens ++ rest = q.tokens ++ rest') : p = q ∧ rest = rest' := by
  have hclose (tail : List Token) : NoneBegins (.operator .closeBracket :: tail) := by
    intro token ht
    obtain rfl : .operator .closeBracket = token := by simpa using ht
    rfl
  induction p generalizing q rest rest' with
  | identifier word => cases q <;> simp_all [tokens]
  | number digits => cases q <;> simp_all [tokens]
  | truth value => cases q <;> simp_all [tokens]
  | name word => cases q <;> simp_all [tokens]
  | lambda word body ih =>
    cases q with
    | lambda word' body' =>
      simp only [tokens, List.cons_append, List.cons.injEq, Token.identifier.injEq, true_and] at h
      obtain ⟨rfl, h⟩ := h
      obtain ⟨rfl, rfl⟩ := ih hr hr' h
      exact ⟨rfl, rfl⟩
    | _ => simp [tokens] at h
  | group inner ih =>
    cases q with
    | group inner' =>
      simp only [tokens, List.cons_append, List.append_assoc, List.cons.injEq, true_and] at h
      obtain ⟨rfl, htail⟩ := ih (hclose _) (hclose _) h
      simpa using htail
    | apply fn arg =>
      simp only [tokens, List.cons_append, List.append_assoc, List.cons.injEq, true_and] at h
      obtain ⟨rfl, htail⟩ := ih (hclose _) (hclose _) h
      have hrest : rest = arg.tokens ++ rest' := by simpa using htail
      exact absurd (hrest ▸ hr) (arg.not_noneBegins rest')
    | _ => simp [tokens] at h
  | apply fn arg ihf iha =>
    cases q with
    | apply fn' arg' =>
      simp only [tokens, List.cons_append, List.append_assoc, List.cons.injEq, true_and] at h
      obtain ⟨rfl, htail⟩ := ihf (hclose _) (hclose _) h
      have harg : arg.tokens ++ rest = arg'.tokens ++ rest' := by simpa using htail
      obtain ⟨rfl, rfl⟩ := iha hr hr' harg
      exact ⟨rfl, rfl⟩
    | group inner =>
      simp only [tokens, List.cons_append, List.append_assoc, List.cons.injEq, true_and] at h
      obtain ⟨rfl, htail⟩ := ihf (hclose _) (hclose _) h
      have hrest : arg.tokens ++ rest = rest' := by simpa using htail
      exact absurd (hrest ▸ hr') (arg.not_noneBegins rest)
    | _ => simp [tokens] at h

/-- The grammar is unambiguous. -/
theorem tokens_injective : Function.Injective tokens := by
  intro p q h
  have hnil : NoneBegins [] := by simp [NoneBegins]
  have happ : p.tokens ++ [] = q.tokens ++ [] := by simp [h]
  exact (tokens_append_inj hnil hnil happ).1

/-- Inside the lambdas with the heads `scope`, the innermost one first, the phrase stands for the
term, which is put together while the supply goes from the first to the second one. -/
inductive Denotes (program : Program) (patience : Nat) :
    List Variable → Supply → Phrase → Term → Supply → Prop
  /-- An identifier belongs to the innermost lambda of its name. -/
  | bound {scope : List Variable} {s : Supply} {word : String} {head : Variable} :
      scope.find? (·.name == word) = some head →
      Denotes program patience scope s (identifier word) (.var s.node head) ⟨s.id, s.node + 1⟩
  /-- Without such a lambda it is a free variable of its own. -/
  | free {scope : List Variable} {s : Supply} {word : String} :
      scope.find? (·.name == word) = none →
      Denotes program patience scope s (identifier word) (.var s.node ⟨word, false, s.id⟩)
        ⟨s.id + 1, s.node + 1⟩
  | number {scope : List Variable} {s : Supply} {digits : String} :
      Text.Decimal.value digits.toList ≤ numeralBound →
      Denotes program patience scope s (number digits)
        (Term.numeral (Text.Decimal.value digits.toList) s).1
        (Term.numeral (Text.Decimal.value digits.toList) s).2
  | truth {scope : List Variable} {s : Supply} {value : Bool} :
      Denotes program patience scope s (truth value) (Term.truth value s).1 (Term.truth value s).2
  /-- A name stands for a copy of the outcome of its command. -/
  | name {scope : List Variable} {s s₁ : Supply} {word : String} {c : Command} {t : Term} :
      program.get? word = some c → c.execute patience s = .ok t s₁ →
      Denotes program patience scope s (name word) (t.refresh s₁).1 (t.refresh s₁).2
  | lambda {scope : List Variable} {s s₁ : Supply} {word : String} {body : Phrase} {t : Term} :
      Denotes program patience (⟨word, true, s.id⟩ :: scope) ⟨s.id + 1, s.node⟩ body t s₁ →
      Denotes program patience scope s (lambda word body) (.lam s₁.node ⟨word, true, s.id⟩ t)
        ⟨s₁.id, s₁.node + 1⟩
  | group {scope : List Variable} {s s₁ : Supply} {inner : Phrase} {t : Term} :
      Denotes program patience scope s inner t s₁ →
      Denotes program patience scope s (group inner) t s₁
  | apply {scope : List Variable} {s s₁ s₂ : Supply} {fn arg : Phrase} {t u : Term} :
      Denotes program patience scope s fn t s₁ → Denotes program patience scope s₁ arg u s₂ →
      Denotes program patience scope s (apply fn arg) (.app s₂.node t u) ⟨s₂.id, s₂.node + 1⟩

/-- No name occurs in the phrase, and all its numerals lie within the bound. -/
def Plain : Phrase → Prop
  | identifier _ => True
  | number digits => Text.Decimal.value digits.toList ≤ numeralBound
  | truth _ => True
  | name _ => False
  | lambda _ body => body.Plain
  | group inner => inner.Plain
  | apply fn arg => fn.Plain ∧ arg.Plain

theorem Plain.exists_denotes {p : Phrase} (h : p.Plain) (program : Program) (patience : Nat)
    (scope : List Variable) (s : Supply) : ∃ t s', p.Denotes program patience scope s t s' := by
  induction p generalizing scope s with
  | identifier word =>
    cases hf : scope.find? (·.name == word) with
    | some head => exact ⟨_, _, .bound hf⟩
    | none => exact ⟨_, _, .free hf⟩
  | number digits => exact ⟨_, _, .number h⟩
  | truth value => exact ⟨_, _, .truth⟩
  | name word => exact absurd h not_false
  | lambda word body ih =>
    obtain ⟨t, s', ht⟩ := ih h (⟨word, true, s.id⟩ :: scope) ⟨s.id + 1, s.node⟩
    exact ⟨_, _, .lambda ht⟩
  | group inner ih =>
    obtain ⟨t, s', ht⟩ := ih h scope s
    exact ⟨t, s', .group ht⟩
  | apply fn arg hf ha =>
    obtain ⟨t, s₁, ht⟩ := hf h.1 scope s
    obtain ⟨u, s₂, hu⟩ := ha h.2 scope s₁
    exact ⟨_, _, .apply ht hu⟩

namespace Denotes

variable {patience : Nat} {scope : List Variable} {s s' : Supply} {p : Phrase} {t : Term}

/-- Where no name stands for anything, only plain phrases denote terms. -/
theorem plain (h : p.Denotes {} patience scope s t s') : p.Plain := by
  induction h with
  | bound _ => trivial
  | free _ => trivial
  | number hn => exact hn
  | truth => trivial
  | name hc _ => cases hc
  | lambda _ ih => exact ih
  | group _ ih => exact ih
  | apply _ _ hf ha => exact ⟨hf, ha⟩

end Denotes

end Phrase

namespace Term

/-- The numeral `n`: its first argument `f` is applied `n` times to its second one. -/
def churchNumeral (f x : Variable) (n : Nat) : Term :=
  lam 0 f (lam 0 x ((app 0 (var 0 f))^[n] (var 0 x)))

/-- A truth value: of its two arguments it answers the first one if it is true, else the second. -/
def churchTruth (a b : Variable) (value : Bool) : Term :=
  lam 0 a (lam 0 b (var 0 (if value then a else b)))

theorem applyTimes_alike (f : Variable) (k : Nat) {t u : Term} (s : Supply)
    (h : t.alike u = true) :
    (applyTimes f k t s).1.alike ((app 0 (var 0 f))^[k] u) = true := by
  induction k generalizing t u s with
  | zero => exact h
  | succ k ih =>
    have happ : (app (s.node + 1) (var s.node f) t).alike (app 0 (var 0 f) u) = true := by
      simp [alike, h]
    exact ih { s with node := s.node + 2 } happ

theorem numeral_alike (n : Nat) (s : Supply) :
    (numeral n s).1.alike (churchNumeral ⟨"f", true, s.id⟩ ⟨"x", true, s.id + 1⟩ n) = true := by
  have hx : (var s.node ⟨"x", true, s.id + 1⟩).alike (var 0 ⟨"x", true, s.id + 1⟩) = true := by
    simp [alike]
  have hbody := applyTimes_alike ⟨"f", true, s.id⟩ n ⟨s.id + 2, s.node + 1⟩ hx
  change (lam _ ⟨"f", true, s.id⟩ (lam _ ⟨"x", true, s.id + 1⟩ _)).alike _ = true
  simp only [churchNumeral, alike, beq_self_eq_true, Bool.true_and]
  exact hbody

theorem truth_alike (value : Bool) (s : Supply) :
    (truth value s).1.alike (churchTruth ⟨"a", true, s.id⟩ ⟨"b", true, s.id + 1⟩ value) = true := by
  change (lam _ ⟨"a", true, s.id⟩ (lam _ ⟨"b", true, s.id + 1⟩ (var _ _))).alike _ = true
  simp [churchTruth, alike]

/-- The variables that a term brings in: the heads of its lambdas and its free occurrences, in the
order in which they are written. -/
def introduced : Term → List Variable
  | var _ v => if v.bound then [] else [v]
  | lam _ head body => head :: body.introduced
  | app _ fn arg => fn.introduced ++ arg.introduced

theorem introduced_applyTimes {f : Variable} (hf : f.bound = true) (k : Nat) (t : Term)
    (s : Supply) : (applyTimes f k t s).1.introduced = t.introduced := by
  induction k generalizing t s with
  | zero => rfl
  | succ k ih =>
    have happ : (app (s.node + 1) (var s.node f) t).introduced = t.introduced := by
      simp [introduced, hf]
    exact (ih (app (s.node + 1) (var s.node f) t) { s with node := s.node + 2 }).trans happ

theorem introduced_numeral (n : Nat) (s : Supply) :
    (numeral n s).1.introduced = [⟨"f", true, s.id⟩, ⟨"x", true, s.id + 1⟩] := by
  have hbody := introduced_applyTimes (f := ⟨"f", true, s.id⟩) rfl n
    (var s.node ⟨"x", true, s.id + 1⟩) ⟨s.id + 2, s.node + 1⟩
  exact congrArg (fun l => (⟨"f", true, s.id⟩ : Variable) :: ⟨"x", true, s.id + 1⟩ :: l) hbody

theorem introduced_truth (value : Bool) (s : Supply) :
    (truth value s).1.introduced = [⟨"a", true, s.id⟩, ⟨"b", true, s.id + 1⟩] := by
  cases value <;> rfl

end Term

/-- The variables of a term that is read take their identities from the supply, one after the
other as they are written. -/
theorem Phrase.Denotes.introduced_eq {patience : Nat} {scope : List Variable} {s s' : Supply}
    {p : Phrase} {t : Term} (h : p.Denotes {} patience scope s t s')
    (hs : ∀ head ∈ scope, head.bound = true) :
    s'.id = s.id + t.introduced.length ∧
      t.introduced.map Variable.id = List.range' s.id t.introduced.length := by
  induction h with
  | bound hf =>
    have hb := hs _ (List.mem_of_find?_eq_some hf)
    simp [Term.introduced, hb]
  | free _ => simp [Term.introduced]
  | @number scope s digits _ =>
    have hid := (Term.numeral_built [] (Text.Decimal.value digits.toList) s (Nat.le_refl s.id)).2
    rw [Term.introduced_numeral, hid]
    exact ⟨rfl, rfl⟩
  | truth =>
    rw [Term.introduced_truth]
    exact ⟨rfl, rfl⟩
  | name hc _ => cases hc
  | lambda _ ih =>
    obtain ⟨hid, hmap⟩ := ih (List.forall_mem_cons.mpr ⟨rfl, hs⟩)
    simp only [Term.introduced, List.length_cons, List.map_cons, List.range'_succ]
    refine ⟨?_, congrArg _ hmap⟩
    simp only [hid]
    omega
  | group _ ih => exact ih hs
  | apply _ _ hf ha =>
    obtain ⟨hidf, hmapf⟩ := hf hs
    obtain ⟨hida, hmapa⟩ := ha hs
    simp only [Term.introduced, List.length_append, List.map_append, hmapf, hmapa]
    refine ⟨by omega, ?_⟩
    rw [hidf]
    exact List.range'_append_1

/-- A term that is read without any names given is put together from what was drawn for it. -/
theorem Phrase.Denotes.built {patience : Nat} {scope : List Variable} {s s' : Supply} {p : Phrase}
    {t : Term} (h : p.Denotes {} patience scope s t s') (hs : ∀ head ∈ scope, head.bound = true)
    {old : Nat} (hold : old ≤ s.id) : t.Built old scope s.id s'.id := by
  induction h with
  | bound hf =>
    have hh := List.mem_of_find?_eq_some hf
    exact .occurrence hh (hs _ hh)
  | free _ => exact .free _
  | @number scope s digits _ =>
    have hb := Term.numeral_built scope (Text.Decimal.value digits.toList) s hold
    rw [hb.2]
    exact hb.1
  | @truth scope s value => exact (Term.truth_built value s hold).1
  | name hc _ => cases hc
  | lambda _ ih =>
    have hbody := ih (List.forall_mem_cons.mpr ⟨rfl, hs⟩) (Nat.le_succ_of_le hold)
    exact hbody.lam rfl rfl hold
  | group _ ih => exact ih hs hold
  | apply _ _ hf ha =>
    have hfn := hf hs hold
    exact hfn.app (ha hs (Nat.le_trans hold hfn.drawn.le)) hold

end LambdaCalc
