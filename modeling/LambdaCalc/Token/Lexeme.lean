import LambdaCalc.Error
import LambdaCalc.Text.Blank

namespace LambdaCalc

/-- What is left after the next line break. -/
def afterLine : List Char → List Char
  | [] => []
  | c :: cs => if c = '\n' then cs else afterLine cs

mutual

/-- Drops the blanks and comments in front of the next token. -/
def skipBlanks : List Char → List Char
  | [] => []
  | c :: cs =>
    if Text.isBlank c then skipBlanks cs
    else if c = '#' then skipComment cs
    else c :: cs

/-- A comment ends with its line. -/
def skipComment : List Char → List Char
  | [] => []
  | c :: cs => if c = '\n' then skipBlanks cs else skipComment cs

end

namespace Token

/-- The token of the word that begins with a lowercase letter. -/
def ofLowercase (isReserved : String → Bool) (word : String) : Token :=
  if isReserved word then reserved word else ofWord word

/-- A run of digits must not run into a word. -/
def ofDigits (digits : String) : List Char → Except Error Token
  | [] => .ok (number digits)
  | c :: _ => if isWordChar c then .error (.malformedLiteral digits c) else .ok (number digits)

/-- The token that begins with the character `c`, and what is left of the text after it. A single
character is looked up among the reserved words before anything else. -/
def readFrom (isReserved : String → Bool) (c : Char) (cs : List Char) :
    Except Error Token × List Char :=
  if isReserved c.toString then
    (.ok (reserved c.toString), cs)
  else if c.isLower then
    (.ok (ofLowercase isReserved (String.ofList (c :: cs.takeWhile isWordChar))),
      cs.dropWhile isWordChar)
  else if c.isUpper then
    (.ok (name (String.ofList (c :: cs.takeWhile isWordChar))), cs.dropWhile isWordChar)
  else if c.isDigit then
    (ofDigits (String.ofList (c :: cs.takeWhile Char.isDigit)) (cs.dropWhile Char.isDigit),
      cs.dropWhile Char.isDigit)
  else match Operator.ofChar? c with
    | some o => (.ok (operator o), cs)
    | none => (.error (.unrecognized c), cs)

/-- The next token of a text and what is left after it. Words and runs of digits are as long as
possible, and every other token is one character. -/
def read (isReserved : String → Bool) (input : List Char) : Except Error Token × List Char :=
  match skipBlanks input with
  | [] => (.ok endOfInput, [])
  | c :: cs => readFrom isReserved c cs

end Token

theorem length_afterLine_le (cs : List Char) : (afterLine cs).length ≤ cs.length := by
  induction cs with
  | nil => simp [afterLine]
  | cons c cs ih =>
    unfold afterLine
    split
    · simp
    · exact Nat.le_succ_of_le ih

theorem length_skip_le (cs : List Char) :
    (skipBlanks cs).length ≤ cs.length ∧ (skipComment cs).length ≤ cs.length := by
  induction cs with
  | nil => simp [skipBlanks, skipComment]
  | cons c cs ih =>
    obtain ⟨blanks, comment⟩ := ih
    constructor
    · unfold skipBlanks
      split
      · exact Nat.le_succ_of_le blanks
      · split
        · exact Nat.le_succ_of_le comment
        · exact Nat.le_refl _
    · unfold skipComment
      split
      · exact Nat.le_succ_of_le blanks
      · exact Nat.le_succ_of_le comment

/-- A comment is dropped as if its line were. -/
theorem skipComment_eq (cs : List Char) : skipComment cs = skipBlanks (afterLine cs) := by
  induction cs with
  | nil => rfl
  | cons c cs ih =>
    rw [skipComment, afterLine]
    split
    · rfl
    · exact ih

private theorem length_dropWhile_le (p : Char → Bool) (cs : List Char) :
    (cs.dropWhile p).length ≤ cs.length := by
  induction cs with
  | nil => simp
  | cons c cs ih =>
    rw [List.dropWhile_cons]
    split
    · exact Nat.le_succ_of_le ih
    · exact Nat.le_refl _

theorem Token.length_readFrom_le (isReserved : String → Bool) (c : Char) (cs : List Char) :
    (readFrom isReserved c cs).2.length ≤ cs.length := by
  unfold readFrom
  repeat' split
  all_goals first | exact Nat.le_refl _ | exact length_dropWhile_le _ cs

/-- Reading a token takes at least one character, unless none is left. -/
theorem Token.length_read_lt (isReserved : String → Bool) (input : List Char)
    (h : input ≠ []) : (read isReserved input).2.length < input.length := by
  have hs := (length_skip_le input).1
  unfold read
  split
  · exact List.length_pos_iff.mpr h
  · rename_i c cs hc
    have hr := length_readFrom_le isReserved c cs
    rw [hc, List.length_cons] at hs
    omega

end LambdaCalc
