import LambdaCalc.Proofs.Inlining
import LambdaCalc.Proofs.Rendering

namespace LambdaCalc

namespace Text.Decimal

theorem value_toString (n : Nat) : value (toString n).toList = n := by
  have hdigits : (toString n).toList = Nat.toDigits 10 n := by simp
  have hfold : value (Nat.toDigits 10 n) = Nat.ofDigitChars 10 (Nat.toDigits 10 n) 0 := rfl
  rw [hdigits, hfold, Nat.ofDigitChars_toDigits (by decide) (by decide)]

theorem isCount_toString (n : Nat) : isCount (toString n).toList = true := by
  have hdigits : (toString n).toList = Nat.toDigits 10 n := by simp
  have hne : Nat.toDigits 10 n ≠ [] := by simp
  simp only [hdigits, isCount, Bool.and_eq_true, Bool.not_eq_true', List.isEmpty_eq_false_iff,
    List.all_eq_true]
  exact ⟨hne, fun c hc => Nat.isDigit_of_mem_toDigits (by decide) (by decide) hc⟩

end Text.Decimal

theorem Read.clamp_eq {budget steps : Nat} (h : budget = 0 ∨ steps ≤ budget) :
    clamp budget steps = steps := by
  rw [clamp, if_neg]
  rintro ⟨hne, hlt⟩
  rcases h with rfl | hle
  · exact hne rfl
  · omega

theorem Read.clamp_le {budget steps : Nat} :
    clamp budget steps ≤ steps ∧ (budget = 0 ∨ clamp budget steps ≤ budget) := by
  unfold clamp
  split <;> omega

namespace Conversion

/-- A reduction that can be asked for where this budget is set: its count fits into 64 bits, and is
no larger than the budget if there is one. -/
def Within (budget : Nat) : Conversion → Prop
  | beta b => b.budget = budget ∧ b.steps < Text.Decimal.countBound ∧
      (budget = 0 ∨ b.steps ≤ budget)
  | _ => True

/-- What a conversion is written as. A count is always written out. -/
def suffix : Conversion → Suffix
  | identity => .none
  | alpha old new => .alpha old new
  | beta b => .count (toString b.steps)

variable {budget : Nat} {k : Conversion}

theorem Within.means (h : k.Within budget) : k.suffix.Means budget k := by
  cases k with
  | identity => exact .none
  | alpha old new => exact .alpha
  | beta b =>
    obtain ⟨steps, bound⟩ := b
    obtain ⟨rfl, hcount, hbudget⟩ := h
    have hvalue := Text.Decimal.value_toString steps
    have hmeans : (Suffix.count (toString steps)).Means bound _ :=
      .count (by rw [hvalue]; exact hcount)
    rw [hvalue, Read.clamp_eq hbudget] at hmeans
    exact hmeans

/-- Of the steps that are asked for, those are kept that the budget allows. -/
theorem within_clamp {steps : Nat} (h : steps < Text.Decimal.countBound) :
    (beta ⟨Read.clamp budget steps, budget⟩).Within budget := by
  obtain ⟨hsteps, hbudget⟩ := @Read.clamp_le budget steps
  exact ⟨rfl, Nat.lt_of_le_of_lt hsteps h, hbudget⟩

theorem within_of_means {x : Suffix} (h : x.Means budget k) : k.Within budget := by
  cases h with
  | none => trivial
  | step => exact within_clamp (by decide)
  | count hlt => exact within_clamp hlt
  | @truth value => exact within_clamp (by cases value <;> decide)
  | alpha => trivial

theorem cut_text {rest : List Char} (hk : k.Readable) (hrest : EndsWord rest) :
    Cut (fun _ => false) (k.text.toList ++ rest) k.suffix.tokens rest := by
  have harrow (word : List Char) : EndsWord ('>' :: (word ++ rest)) := by
    simp [EndsWord, isWordChar]
  cases k with
  | identity => exact .nil rest
  | alpha old new =>
    have hnew := Cut.operator .arrow rfl (cut_identifier hk.2 hrest)
    simpa [text, suffix, Suffix.tokens, Operator.char] using
      (cut_identifier hk.1 (harrow _)).append hnew
  | beta b =>
    have hwritten : (Token.number (toString b.steps)).Written :=
      Text.Decimal.isCount_toString b.steps
    have hread := Token.read_text hwritten fun _ => harrow []
    simpa [text, suffix, Suffix.tokens, Operator.char, Token.text] using
      Cut.cons hread (by simp) (Cut.operator .arrow rfl (.nil rest))

end Conversion

namespace Command

/-- A command of the language, as it can be read where this budget is set. -/
structure Writable (budget : Nat) (c : Command) : Prop where
  readable : c.Readable
  within : c.conversion.Within budget

/-- How a command is written. -/
def sentence (c : Command) : Sentence := ⟨none, c.term.phrase, c.conversion.suffix⟩

theorem cut_text {c : Command} (hc : c.Readable) :
    Cut (fun _ => false) c.text.toList (c.sentence.row 0 ++ [.operator .semicolon]) [] := by
  have hends {rest : List Char} : EndsWord (';' :: rest) := by simp [EndsWord, isWordChar]
  have hsemicolon : Cut (fun _ => false) [';'] [.operator .semicolon] [] :=
    Cut.operator .semicolon rfl (.nil [])
  have hsuffix := (c.conversion.cut_text hc.conversion hends).append hsemicolon
  have hrow : c.sentence.row 0 ++ [.operator .semicolon] =
      c.term.phrase.tokens ++ (c.conversion.suffix.tokens ++ [.operator .semicolon]) := by
    simp [Sentence.row, Sentence.tokens, Sentence.header, sentence]
  rw [hrow]
  by_cases hidentity : c.conversion = .identity
  · have htext : c.text.toList = c.term.text.toList ++ [';'] := by
      simp [text, hidentity, Term.print_eq_text]
    rw [hidentity] at hsuffix ⊢
    rw [htext]
    exact (Term.cut_text hc.term hends).append hsuffix
  · have htext : c.text.toList =
        c.term.text.toList ++ (' ' :: (c.conversion.text.toList ++ [';'])) := by
      rw [text]
      split
      · contradiction
      · simp [Term.print_eq_text]
    have hspace : EndsWord (' ' :: (c.conversion.text.toList ++ [';'])) := by
      simp [EndsWord, isWordChar]
    rw [htext]
    exact (Term.cut_text hc.term hspace).append (hsuffix.blank (by decide) (by simp))

end Command

namespace Read

/-- The text of a command is read as a command of the same conversion, whose term has the same
constructors and the same names at every position. Every command that is read in the course of a
program is such that this holds of it. -/
theorem statement_text :
    (∀ (budget patience : Nat) (supply : Supply) (c : Command), c.Writable budget →
      ∃ c' r',
        statement
          { source := { input := c.text.toList }, supply := supply, budget := budget
            patience := patience } = .ok (some c') r' ∧
        c'.term.sameNames c.term = true ∧ c'.conversion = c.conversion ∧ c'.text = c.text ∧
        r'.source.input = []) ∧
      ∀ (r r' : Reader) (c : Command), r.Reachable → statement r = .ok (some c) r' →
        c.Writable r.budget := by
  constructor
  · intro budget patience supply c hc
    obtain ⟨t, s, hd⟩ := c.term.plain_phrase.exists_denotes {} patience [] supply
    have hfits : c.sentence.Fits := by
      intro hgroup
      rw [Command.sentence, Phrase.endsInGroup_phrase] at hgroup
      cases hgroup
    let r : Reader :=
      { source := { input := c.text.toList }, supply := supply, budget := budget
        patience := patience }
    obtain ⟨r', hread, hinput, -⟩ := statement_of_sentence (r := r) hfits
      (Command.cut_text hc.readable) hd hc.within.means
    have hphrase : t.phrase = c.term.phrase := Term.phrase_eq_of_denotes hd
    exact ⟨_, r', hread, (Term.sameNames_iff _ _).mpr hphrase, rfl,
      Command.text_eq hphrase rfl, hinput⟩
  · intro r r' c hr h
    obtain ⟨x, empty, hx⟩ := sentence_of_statement h
    have hreadable := (spells_statement.of_ok hr.literate h).2
    exact ⟨hreadable c rfl, Conversion.within_of_means hx.means⟩

/-- Brackets that end a function and a count behind the argument. -/
def countedSteps : Command where
  term := .app 3 (.lam 1 ⟨"x", true, 0⟩ (.var 0 ⟨"x", true, 0⟩)) (.var 2 ⟨"true_1", false, 1⟩)
  conversion := .beta ⟨40, 64⟩

theorem statement_text_countedSteps :
    countedSteps.text = "(\\x . x) true_1 40>;" ∧
      (∃ c r',
        statement { source := { input := countedSteps.text.toList }, budget := 64, patience := 0 } =
          .ok (some c) r' ∧
        c.conversion = .beta ⟨40, 64⟩ ∧ c.text = countedSteps.text ∧ r'.source.input = []) ∧
      ∃ c r', statement { source := { input := "x 41>;".toList }, budget := 5, patience := 0 } =
          .ok (some c) r' ∧ c.Writable 5 ∧ c.conversion = .beta ⟨5, 5⟩ := by
  refine ⟨by decide +kernel, ?_, ?_⟩
  · have hwritable : countedSteps.Writable 64 := by
      refine ⟨⟨?_, trivial⟩, rfl, ?_, ?_⟩ <;> decide
    obtain ⟨c, r', hread, -, hconversion, htext, hinput⟩ :=
      statement_text.1 64 0 {} countedSteps hwritable
    exact ⟨c, r', hread, hconversion, htext, hinput⟩
  · let r : Reader := { source := { input := "x 41>;".toList }, budget := 5, patience := 0 }
    have hrun : (answers? statement r).map (fun found => found.1.map Command.conversion) =
        some (some (.beta ⟨5, 5⟩)) := by decide +kernel
    obtain ⟨⟨c?, r'⟩, hanswers, hfound⟩ := Option.map_eq_some_iff.mp hrun
    obtain ⟨c, rfl, hconversion⟩ := Option.map_eq_some_iff.mp hfound
    have hread := answers?_eq_some_iff.mp hanswers
    exact ⟨c, r', hread, statement_text.2 r r' c (.start _ _ _ _) hread, hconversion⟩

end Read

end LambdaCalc
