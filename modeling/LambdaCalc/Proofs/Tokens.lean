import LambdaCalc.Token.Source

namespace LambdaCalc

theorem toNat_of_isLower {c : Char} (h : c.isLower = true) : 97 ≤ c.toNat ∧ c.toNat ≤ 122 :=
  have hboth := Bool.and_eq_true_iff.mp h
  ⟨of_decide_eq_true hboth.1, of_decide_eq_true hboth.2⟩

theorem toNat_of_isUpper {c : Char} (h : c.isUpper = true) : 65 ≤ c.toNat ∧ c.toNat ≤ 90 :=
  of_decide_eq_true h

theorem toNat_of_isDigit {c : Char} (h : c.isDigit = true) : 48 ≤ c.toNat ∧ c.toNat ≤ 57 :=
  Char.isDigit_iff_toNat.mp h

theorem isWordChar_of_isAlphanum {c : Char} (h : c.isAlphanum = true) : isWordChar c = true :=
  Bool.or_eq_true_iff.mpr (.inl h)

theorem isWordChar_of_isDigit {c : Char} (h : c.isDigit = true) : isWordChar c = true :=
  isWordChar_of_isAlphanum (Bool.or_eq_true_iff.mpr (.inr h))

theorem isWordChar_of_isUpper {c : Char} (h : c.isUpper = true) : isWordChar c = true :=
  have halpha : c.isAlpha = true := Bool.or_eq_true_iff.mpr (.inl h)
  isWordChar_of_isAlphanum (Bool.or_eq_true_iff.mpr (.inl halpha))

theorem isWordChar_of_isLower {c : Char} (h : c.isLower = true) : isWordChar c = true :=
  have halpha : c.isAlpha = true := Bool.or_eq_true_iff.mpr (.inr h)
  isWordChar_of_isAlphanum (Bool.or_eq_true_iff.mpr (.inl halpha))

theorem toNat_of_isWordChar {c : Char} (h : isWordChar c = true) :
    48 ≤ c.toNat ∧ c.toNat ≤ 122 := by
  rcases Bool.or_eq_true_iff.mp h with h | h
  · rcases Bool.or_eq_true_iff.mp h with h | h
    · rcases Bool.or_eq_true_iff.mp h with h | h
      · have := toNat_of_isUpper h
        omega
      · have := toNat_of_isLower h
        omega
    · have := toNat_of_isDigit h
      omega
  · obtain rfl : c = '_' := by simpa using h
    decide

/-- No blank is a part of a word. -/
theorem Text.isBlank_eq_false_of_isWordChar {c : Char} (h : isWordChar c = true) :
    Text.isBlank c = false := by
  have hrange := toNat_of_isWordChar h
  rw [← Bool.not_eq_true, Text.isBlank, Text.inRanges_iff]
  rintro ⟨r, hr, hle⟩
  -- no interval of blanks meets those of the characters of words
  have hapart : ∀ r ∈ Text.blankRanges, r.2 < 48 ∨ 122 < r.1 := by decide
  have := hapart r hr
  omega

/-- A run of characters ends in front of the first one that cannot go on with it. -/
theorem run_exact {p : Char → Bool} {word rest : List Char} (hword : ∀ d ∈ word, p d = true)
    (hrest : ∀ d ∈ rest.head?, p d = false) :
    (word ++ rest).takeWhile p = word ∧ (word ++ rest).dropWhile p = rest := by
  rw [List.takeWhile_append_of_pos hword, List.dropWhile_append_of_pos hword]
  cases rest with
  | nil => simp
  | cons d rest =>
    have hd : p d = false := hrest d rfl
    simp [hd]

/-- Where a gap ends no other one begins. -/
theorem skip_head {cs rest : List Char} {c : Char} :
    (skipBlanks cs = c :: rest → Text.isBlank c = false ∧ c ≠ '#') ∧
      (skipComment cs = c :: rest → Text.isBlank c = false ∧ c ≠ '#') := by
  induction cs with
  | nil => simp [skipBlanks, skipComment]
  | cons d cs ih =>
    obtain ⟨hblanks, hcomment⟩ := ih
    constructor
    · unfold skipBlanks
      split
      · exact hblanks
      · next hd =>
        split
        · exact hcomment
        · next hhash =>
          rintro ⟨⟩
          exact ⟨by simpa using hd, hhash⟩
    · unfold skipComment
      split
      · exact hblanks
      · exact hcomment

namespace Token

variable {isReserved : String → Bool}

theorem read_blank {c : Char} (h : Text.isBlank c = true) (cs : List Char) :
    read isReserved (c :: cs) = read isReserved cs := by
  rw [read, skipBlanks, if_pos h, read]

theorem read_cons {c : Char} (hb : Text.isBlank c = false) (hc : c ≠ '#') (cs : List Char) :
    read isReserved (c :: cs) = readFrom isReserved c cs := by
  rw [read, skipBlanks, if_neg (by simp [hb]), if_neg hc]

theorem read_operator (o : Operator) (h : isReserved o.char.toString = false) (cs : List Char) :
    read isReserved (o.char :: cs) = (.ok (operator o), cs) := by
  have hclass : Text.isBlank o.char = false ∧ o.char ≠ '#' ∧ o.char.isLower = false ∧
      o.char.isUpper = false ∧ o.char.isDigit = false := by cases o <;> decide
  obtain ⟨hb, hc, hlower, hupper, hdigit⟩ := hclass
  rw [read_cons hb hc]
  simp only [readFrom, h, hlower, hupper, hdigit, Operator.ofChar?_char, Bool.false_eq_true,
    if_false]

theorem ne_hash_of_isWordChar {c : Char} (h : isWordChar c = true) : c ≠ '#' := by
  rintro rfl
  cases h

/-- A word ends in front of the first character that cannot be a part of it. -/
theorem read_word {c : Char} {cs rest : List Char} (hc : c.isLower = true)
    (hcs : ∀ d ∈ cs, isWordChar d = true) (hrest : ∀ d ∈ rest.head?, isWordChar d = false)
    (hchar : isReserved c.toString = false) :
    read isReserved (c :: (cs ++ rest)) =
      (.ok (ofLowercase isReserved (String.ofList (c :: cs))), rest) := by
  have hword := isWordChar_of_isLower hc
  obtain ⟨htake, hdrop⟩ := run_exact hcs hrest
  rw [read_cons (Text.isBlank_eq_false_of_isWordChar hword) (ne_hash_of_isWordChar hword)]
  simp only [readFrom, hchar, hc, htake, hdrop, Bool.false_eq_true, if_false, if_true]

/-- A token other than the end of the text takes a character at least. -/
theorem length_lt_of_read {input rest : List Char} {token : Token}
    (h : read isReserved input = (.ok token, rest)) (hne : token ≠ .endOfInput) :
    rest.length < input.length := by
  have hinput : input ≠ [] := by
    rintro rfl
    cases h
    exact hne rfl
  have hlt := length_read_lt isReserved input hinput
  rwa [h] at hlt

theorem length_le_of_read {input rest : List Char} {found : Except Error Token}
    (h : read isReserved input = (found, rest)) : rest.length ≤ input.length := by
  cases input with
  | nil =>
    cases h
    exact Nat.le_refl 0
  | cons c cs =>
    have hlt := length_read_lt isReserved (c :: cs) (List.cons_ne_nil c cs)
    rw [h] at hlt
    exact Nat.le_of_lt hlt

/-- A word is reported as reserved only if it is, and only by a token. -/
def Honest (isReserved : String → Bool) : Except Error Token → Prop
  | .ok (reserved word) => isReserved word = true
  | .ok _ => True
  | .error e => ∀ word, e ≠ .reservedWord word

theorem honest_ofLowercase (word : String) :
    Honest isReserved (.ok (ofLowercase isReserved word)) := by
  rw [ofLowercase]
  split
  · assumption
  · rw [ofWord]
    repeat' split
    all_goals trivial

theorem honest_ofDigits (digits : String) (cs : List Char) :
    Honest isReserved (ofDigits digits cs) := by
  cases cs with
  | nil => trivial
  | cons c cs =>
    rw [ofDigits]
    split
    · intro word h
      cases h
    · trivial

theorem honest_read (isReserved : String → Bool) (input : List Char) :
    Honest isReserved (read isReserved input).1 := by
  rw [read]
  split
  · trivial
  · rw [readFrom]
    split
    · assumption
    split
    · exact honest_ofLowercase _
    split
    · trivial
    split
    · exact honest_ofDigits _ _
    split
    · trivial
    · intro word h
      cases h

end Token

/-- The text is cut into these tokens, and behind them nothing but blanks and comments is left. -/
inductive Tokenized (isReserved : String → Bool) : List Char → List Token → Prop
  | done {input rest : List Char} :
      Token.read isReserved input = (.ok .endOfInput, rest) → Tokenized isReserved input []
  | next {input rest : List Char} {token : Token} {tokens : List Token} :
      Token.read isReserved input = (.ok token, rest) → token ≠ .endOfInput →
      Tokenized isReserved rest tokens → Tokenized isReserved input (token :: tokens)

namespace Tokenized

variable {isReserved : String → Bool} {input : List Char} {tokens tokens' : List Token}

theorem nil_iff : Tokenized isReserved input [] ↔
    ∃ rest, Token.read isReserved input = (.ok .endOfInput, rest) := by
  constructor
  · intro h
    cases h with
    | done hr => exact ⟨_, hr⟩
  · rintro ⟨rest, hr⟩
    exact .done hr

theorem cons_iff {token : Token} : Tokenized isReserved input (token :: tokens) ↔
    ∃ rest, Token.read isReserved input = (.ok token, rest) ∧ token ≠ .endOfInput ∧
      Tokenized isReserved rest tokens := by
  constructor
  · intro h
    cases h with
    | next hr hne hrest => exact ⟨_, hr, hne, hrest⟩
  · rintro ⟨rest, hr, hne, hrest⟩
    exact .next hr hne hrest

theorem exists_read (h : Tokenized isReserved input tokens) :
    ∃ token rest, Token.read isReserved input = (.ok token, rest) := by
  cases h with
  | done hr => exact ⟨_, _, hr⟩
  | next hr _ _ => exact ⟨_, _, hr⟩

/-- A text is cut into tokens in one way at most. -/
theorem unique (h : Tokenized isReserved input tokens) (h' : Tokenized isReserved input tokens') :
    tokens = tokens' := by
  induction h generalizing tokens' with
  | done hr =>
    cases h' with
    | done _ => rfl
    | next hr' hne _ =>
      rw [hr] at hr'
      cases hr'
      exact absurd rfl hne
  | next hr hne _ ih =>
    cases h' with
    | done hr' =>
      rw [hr] at hr'
      cases hr'
      exact absurd rfl hne
    | next hr' _ hrest =>
      rw [hr] at hr'
      cases hr'
      rw [ih hrest]

theorem length_le (h : Tokenized isReserved input tokens) : tokens.length ≤ input.length := by
  induction h with
  | done _ => exact Nat.zero_le _
  | @next input rest token tokens hr hne _ ih =>
    rw [List.length_cons]
    exact Nat.lt_of_le_of_lt ih (Token.length_lt_of_read hr hne)

end Tokenized

/-- These tokens are cut off the front of the text, and `rest` is left of it. -/
inductive Cut (isReserved : String → Bool) : List Char → List Token → List Char → Prop
  | nil (input : List Char) : Cut isReserved input [] input
  | cons {input behind rest : List Char} {token : Token} {tokens : List Token} :
      Token.read isReserved input = (.ok token, behind) → token ≠ .endOfInput →
      Cut isReserved behind tokens rest → Cut isReserved input (token :: tokens) rest

namespace Cut

variable {isReserved : String → Bool} {input rest : List Char} {token : Token}
  {tokens tokens' : List Token}

theorem cons_iff : Cut isReserved input (token :: tokens) rest ↔
    ∃ behind, Token.read isReserved input = (.ok token, behind) ∧ token ≠ .endOfInput ∧
      Cut isReserved behind tokens rest := by
  constructor
  · intro h
    cases h with
    | cons hr hne hrest => exact ⟨_, hr, hne, hrest⟩
  · rintro ⟨behind, hr, hne, hrest⟩
    exact .cons hr hne hrest

theorem append_iff : Cut isReserved input (tokens ++ tokens') rest ↔
    ∃ between, Cut isReserved input tokens between ∧ Cut isReserved between tokens' rest := by
  constructor
  · intro h
    induction tokens generalizing input with
    | nil => exact ⟨input, .nil input, h⟩
    | cons token tokens ih =>
      obtain ⟨behind, hr, hne, h⟩ := cons_iff.mp h
      obtain ⟨between, hfirst, hlast⟩ := ih h
      exact ⟨between, .cons hr hne hfirst, hlast⟩
  · rintro ⟨between, hfirst, hlast⟩
    induction hfirst with
    | nil _ => exact hlast
    | cons hr hne _ ih => exact .cons hr hne (ih hlast)

theorem append {between : List Char} (h : Cut isReserved input tokens between)
    (h' : Cut isReserved between tokens' rest) : Cut isReserved input (tokens ++ tokens') rest :=
  append_iff.mpr ⟨between, h, h'⟩

/-- What is cut off first, and then the tokens of all that is left. -/
theorem tokenized (h : Cut isReserved input tokens rest)
    (hrest : Tokenized isReserved rest tokens') :
    Tokenized isReserved input (tokens ++ tokens') := by
  induction h with
  | nil _ => exact hrest
  | cons hr hne _ ih => exact .next hr hne (ih hrest)

theorem length_le (h : Cut isReserved input tokens rest) :
    tokens.length + rest.length ≤ input.length := by
  induction h with
  | nil _ => simp
  | cons hr hne _ ih =>
    have hlt := Token.length_lt_of_read hr hne
    rw [List.length_cons]
    omega

theorem blank {c : Char} (hc : Text.isBlank c = true) (h : Cut isReserved input tokens rest)
    (hne : tokens ≠ []) : Cut isReserved (c :: input) tokens rest := by
  cases h with
  | nil _ => exact absurd rfl hne
  | cons hr htoken hrest => exact .cons (Token.read_blank hc input ▸ hr) htoken hrest

theorem operator (o : Operator) (ho : isReserved o.char.toString = false)
    (h : Cut isReserved input tokens rest) :
    Cut isReserved (o.char :: input) (.operator o :: tokens) rest :=
  .cons (Token.read_operator o ho input) (by simp) h

end Cut

end LambdaCalc
