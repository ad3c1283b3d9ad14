import LambdaCalc.Proofs.RoundTrip

namespace LambdaCalc

/-- The blanks and comments in front of the next token. -/
def gap (input : List Char) : List Char := input.take (input.length - (skipBlanks input).length)

/-- What is left behind the next token where nothing is reserved. -/
def behindToken (input : List Char) : List Char := (Token.read (fun _ => false) input).2

/-- The next token with the blanks and comments in front of it. -/
def upToToken (input : List Char) : List Char :=
  input.take (input.length - (behindToken input).length)

/-- Goes through a text token by token. A token stays as it is written, or the text of a term takes
its place, with a space on both sides. -/
def inlineText : List (Option Term) → List Char → List Char
  | [], input => input
  | none :: terms, input => upToToken input ++ inlineText terms (behindToken input)
  | some t :: terms, input =>
      gap input ++ ' ' :: (t.print.toList ++ ' ' :: inlineText terms (behindToken input))

/-- The tokens of such a text. -/
def inlineTokens : List (Option Term) → List Token → List Token
  | none :: terms, token :: tokens => token :: inlineTokens terms tokens
  | some t :: terms, _ :: tokens => t.phrase.tokens ++ inlineTokens terms tokens
  | _, tokens => tokens

theorem take_length_sub {front rest : List Char} :
    (front ++ rest).take ((front ++ rest).length - rest.length) = front := by
  rw [List.length_append, Nat.add_sub_cancel, List.take_left]

/-- What was passed over ends outside of all comments, so it is passed over in front of any other
text as well. -/
theorem exists_passed {input rest : List Char} {c : Char} :
    (skipBlanks input = c :: rest → ∃ front, input = front ++ c :: rest ∧
      ∀ other, skipBlanks (front ++ other) = skipBlanks other) ∧
    (skipComment input = c :: rest → ∃ front, input = front ++ c :: rest ∧
      ∀ other, skipComment (front ++ other) = skipBlanks other) := by
  induction input with
  | nil => simp [skipBlanks, skipComment]
  | cons d input ih =>
    obtain ⟨hblanks, hcomment⟩ := ih
    constructor
    · intro h
      rw [skipBlanks] at h
      split at h
      · next hd =>
        obtain ⟨front, rfl, hother⟩ := hblanks h
        refine ⟨d :: front, rfl, fun other => ?_⟩
        rw [List.cons_append, skipBlanks, if_pos hd, hother]
      · next hd =>
        split at h
        · next hhash =>
          obtain ⟨front, rfl, hother⟩ := hcomment h
          refine ⟨d :: front, rfl, fun other => ?_⟩
          rw [List.cons_append, skipBlanks, if_neg hd, if_pos hhash, hother]
        · exact ⟨[], h, fun _ => rfl⟩
    · intro h
      rw [skipComment] at h
      split at h
      · next hd =>
        obtain ⟨front, rfl, hother⟩ := hblanks h
        refine ⟨d :: front, rfl, fun other => ?_⟩
        rw [List.cons_append, skipComment, if_pos hd, hother]
      · next hd =>
        obtain ⟨front, rfl, hother⟩ := hcomment h
        refine ⟨d :: front, rfl, fun other => ?_⟩
        rw [List.cons_append, skipComment, if_neg hd, hother]

theorem gap_append {input rest : List Char} {c : Char} (h : skipBlanks input = c :: rest) :
    input = gap input ++ c :: rest ∧
      ∀ other, skipBlanks (gap input ++ other) = skipBlanks other := by
  obtain ⟨front, hinput, hother⟩ := exists_passed.1 h
  have hgap : gap input = front := by
    rw [gap, h]
    subst hinput
    exact take_length_sub
  exact ⟨hgap ▸ hinput, hgap ▸ hother⟩

theorem EndsWord.of_append {front rest other : List Char} (h : EndsWord (front ++ rest))
    (hother : front = [] → EndsWord other) : EndsWord (front ++ other) := by
  cases front with
  | nil => exact hother rfl
  | cons c front => exact h

theorem run_append {p : Char → Bool} (cs : List Char) {other : List Char}
    (hother : ∀ d ∈ other.head?, p d = false) :
    (cs.takeWhile p ++ other).takeWhile p = cs.takeWhile p ∧
      (cs.takeWhile p ++ other).dropWhile p = other :=
  run_exact (List.all_eq_true.mp List.all_takeWhile) hother

theorem endsWord_dropWhile (cs : List Char) : EndsWord (cs.dropWhile isWordChar) := by
  intro d hd
  have hhead := List.head?_dropWhile_not isWordChar cs
  rw [hd] at hhead
  simpa using hhead

theorem EndsWord.not_isDigit {cs : List Char} (h : EndsWord cs) :
    ∀ d ∈ cs.head?, d.isDigit = false := by
  intro d hd
  have hword := h d hd
  by_contra hdigit
  simp [isWordChar, Char.isAlphanum, hdigit] at hword

namespace Token

variable {isReserved : String → Bool} {input behind other : List Char} {token : Token}

/-- Digits are a token only in front of something that ends them. -/
theorem endsWord_of_ofDigits {digits : String} {cs : List Char}
    (h : ofDigits digits cs = .ok token) : EndsWord cs := by
  cases cs with
  | nil => simp [EndsWord]
  | cons d cs =>
    rw [ofDigits] at h
    split at h
    · cases h
    · next hd => simpa [EndsWord] using hd

/-- Digits that end are a token, whatever ends them. -/
theorem ofDigits_of_endsWord (digits : String) {cs : List Char} (h : EndsWord cs) :
    ofDigits digits cs = .ok (number digits) := by
  cases cs with
  | nil => rfl
  | cons d cs =>
    have hd : isWordChar d = false := h d rfl
    simp [ofDigits, hd]

/-- A token ends where it ended before, if no longer word comes up. -/
theorem readFrom_append {c : Char} {cs : List Char}
    (h : readFrom isReserved c cs = (.ok token, behind)) :
    ∃ word, cs = word ++ behind ∧ ∀ other, (EndsWord behind → EndsWord other) →
      readFrom isReserved c (word ++ other) = (.ok token, other) := by
  unfold readFrom at h ⊢
  by_cases hchar : isReserved c.toString
  · simp only [hchar, if_true] at h ⊢
    cases h
    exact ⟨[], rfl, fun _ _ => rfl⟩
  simp only [hchar, Bool.false_eq_true, if_false] at h ⊢
  by_cases hlower : c.isLower
  · simp only [hlower, if_true] at h ⊢
    cases h
    refine ⟨_, List.takeWhile_append_dropWhile.symm, fun other hother => ?_⟩
    obtain ⟨htake, hdrop⟩ := run_append cs (hother (endsWord_dropWhile cs))
    rw [htake, hdrop]
  by_cases hupper : c.isUpper
  · simp only [hlower, hupper, Bool.false_eq_true, if_false, if_true] at h ⊢
    cases h
    refine ⟨_, List.takeWhile_append_dropWhile.symm, fun other hother => ?_⟩
    obtain ⟨htake, hdrop⟩ := run_append cs (hother (endsWord_dropWhile cs))
    rw [htake, hdrop]
  by_cases hdigit : c.isDigit
  · simp only [hlower, hupper, hdigit, Bool.false_eq_true, if_false, if_true] at h ⊢
    obtain ⟨hdigits, rfl⟩ := Prod.mk.inj h
    have hends := endsWord_of_ofDigits hdigits
    rw [ofDigits_of_endsWord _ hends] at hdigits
    cases hdigits
    refine ⟨_, List.takeWhile_append_dropWhile.symm, fun other hother => ?_⟩
    obtain ⟨htake, hdrop⟩ := run_append cs (hother hends).not_isDigit
    rw [htake, hdrop, ofDigits_of_endsWord _ (hother hends)]
  · simp only [hlower, hupper, hdigit, Bool.false_eq_true, if_false] at h ⊢
    split at h
    · cases h
      exact ⟨[], rfl, fun _ _ => rfl⟩
    · cases h

theorem skipBlanks_of_read (h : read isReserved input = (.ok token, behind))
    (hne : token ≠ endOfInput) : ∃ c cs, skipBlanks input = c :: cs ∧
      readFrom isReserved c cs = (.ok token, behind) := by
  rw [read] at h
  split at h
  · cases h
    exact absurd rfl hne
  · next c cs hskip => exact ⟨c, cs, hskip, h⟩

/-- Only where a text has nothing but blanks and comments does a reader report its end. -/
theorem skipBlanks_of_read_endOfInput (h : (read isReserved input).1 = .ok endOfInput) :
    skipBlanks input = [] := by
  rw [read] at h
  split at h
  · assumption
  · unfold readFrom ofLowercase ofWord ofDigits at h
    repeat' split at h
    all_goals cases h

/-- A token is read as before if no longer word comes up behind it. -/
theorem read_append (h : read isReserved input = (.ok token, behind)) (hne : token ≠ endOfInput) :
    ∃ front, input = front ++ behind ∧ front ≠ [] ∧ ∀ other, (EndsWord behind → EndsWord other) →
      read isReserved (front ++ other) = (.ok token, other) := by
  obtain ⟨c, cs, hskip, hfrom⟩ := skipBlanks_of_read h hne
  obtain ⟨word, rfl, hother⟩ := readFrom_append hfrom
  obtain ⟨hinput, hgap⟩ := gap_append hskip
  refine ⟨gap input ++ c :: word, by simpa using hinput, by simp, fun other h' => ?_⟩
  obtain ⟨hblank, hhash⟩ := skip_head.1 hskip
  rw [List.append_assoc, List.cons_append, read, hgap, skipBlanks, if_neg (by simp [hblank]),
    if_neg hhash]
  exact hother other h'

theorem read_upToToken (h : read (fun _ => false) input = (.ok token, behind))
    (hne : token ≠ endOfInput) :
    input = upToToken input ++ behind ∧ upToToken input ≠ [] ∧
      ∀ other, (EndsWord behind → EndsWord other) →
        read (fun _ => false) (upToToken input ++ other) = (.ok token, other) := by
  obtain ⟨front, rfl, hfront, hother⟩ := read_append h hne
  have hup : upToToken (front ++ behind) = front := by
    rw [upToToken, behindToken, h]
    exact take_length_sub
  rw [hup]
  exact ⟨rfl, hfront, hother⟩

end Token

/-- What comes in the place of the text behind a token does not make the token longer. -/
theorem endsWord_inlineText {terms : List (Option Term)} {input behind : List Char} {token : Token}
    (h : Token.read (fun _ => false) input = (.ok token, behind)) (hne : token ≠ .endOfInput)
    (hinput : EndsWord input) : EndsWord (inlineText terms input) := by
  cases terms with
  | nil => exact hinput
  | cons t? terms =>
    cases t? with
    | none =>
      obtain ⟨hsplit, hfront, -⟩ := Token.read_upToToken h hne
      rw [hsplit] at hinput
      exact hinput.of_append fun hnil => absurd hnil hfront
    | some t =>
      obtain ⟨c, cs, hskip, -⟩ := Token.skipBlanks_of_read h hne
      rw [(gap_append hskip).1] at hinput
      exact hinput.of_append fun _ => by simp [EndsWord, isWordChar]

namespace Cut

variable {input behind rest : List Char} {tokens : List Token} {token last : Token}

/-- Whatever is cut off a text is cut off it behind a gap as well. -/
theorem gap (h : Cut (fun _ => false) input tokens rest) (hne : tokens ≠ []) {old other : List Char}
    {c : Char} (hskip : skipBlanks old = c :: other) :
    Cut (fun _ => false) (LambdaCalc.gap old ++ input) tokens rest := by
  cases h with
  | nil _ => exact absurd rfl hne
  | cons hr htoken hrest =>
    refine .cons ?_ htoken hrest
    rw [Token.read, (gap_append hskip).2, ← Token.read]
    exact hr

theorem exists_read (h : Cut (fun _ => false) input tokens rest) (hne : tokens ≠ []) :
    ∃ token behind, Token.read (fun _ => false) input = (.ok token, behind) ∧
      token ≠ .endOfInput := by
  cases h with
  | nil _ => exact absurd rfl hne
  | cons hr htoken _ => exact ⟨_, _, hr, htoken⟩

/-- A text with terms in the place of some tokens is cut into the tokens that stay and those of the
terms. -/
theorem inlined {terms : List (Option Term)}
    (h : Cut (fun _ => false) input (tokens ++ [last]) rest)
    (hterms : ∀ t, some t ∈ terms → t.Readable) (hlength : terms.length ≤ tokens.length) :
    Cut (fun _ => false) (inlineText terms input) (inlineTokens terms tokens ++ [last]) rest := by
  have hspace : Text.isBlank ' ' = true := by decide
  -- `last` makes sure that the space behind a term is read as a gap in front of another token
  induction terms generalizing input tokens with
  | nil => exact h
  | cons t? terms ih =>
    cases tokens with
    | nil => simp at hlength
    | cons token tokens =>
      obtain ⟨behind, hr, htoken, hrest⟩ := cons_iff.mp h
      have hbehind : behindToken input = behind := by rw [behindToken, hr]
      have hnext := ih hrest (fun t ht => hterms t (List.mem_cons_of_mem _ ht))
        (by simpa using hlength)
      cases t? with
      | none =>
        obtain ⟨next, left, hread, hne⟩ := hrest.exists_read (by simp)
        obtain ⟨-, -, hkeep⟩ := Token.read_upToToken hr htoken
        rw [inlineText, hbehind]
        exact .cons (hkeep _ (endsWord_inlineText hread hne)) htoken hnext
      | some t =>
        obtain ⟨c, cs, hskip, -⟩ := Token.skipBlanks_of_read hr htoken
        have hends : EndsWord (' ' :: inlineText terms behind) := by simp [EndsWord, isWordChar]
        have hterm := (Term.cut_text (hterms t List.mem_cons_self) hends).append
          (hnext.blank hspace (by simp))
        rw [inlineText, hbehind, Term.print_eq_text, inlineTokens, List.append_assoc]
        exact (hterm.blank hspace (by simp)).gap (by simp) hskip

end Cut

end LambdaCalc
