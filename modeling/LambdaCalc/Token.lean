namespace LambdaCalc

/-- The operators, each written as one character. -/
inductive Operator
  | lambda
  | dot
  | openBracket
  | closeBracket
  | semicolon
  | equals
  | quote
  | arrow
  deriving DecidableEq

namespace Operator

def char : Operator → Char
  | lambda => '\\'
  | dot => '.'
  | openBracket => '('
  | closeBracket => ')'
  | semicolon => ';'
  | equals => '='
  | quote => '\''
  | arrow => '>'

def ofChar? : Char → Option Operator
  | '\\' => some lambda
  | '.' => some dot
  | '(' => some openBracket
  | ')' => some closeBracket
  | ';' => some semicolon
  | '=' => some equals
  | '\'' => some quote
  | '>' => some arrow
  | _ => none

theorem ofChar?_char (o : Operator) : ofChar? o.char = some o := by
  cases o <;> rfl

theorem ofChar?_eq_some_iff (c : Char) (o : Operator) : ofChar? c = some o ↔ c = o.char := by
  constructor
  · intro h
    unfold ofChar? at h
    split at h <;> cases h <;> rfl
  · rintro rfl
    exact ofChar?_char o

end Operator

/-- Identifiers start with a lowercase letter, names with an uppercase one. The literals are runs
of digits and the two truth values. A reserved word counts as a token of its own. -/
inductive Token
  | identifier (word : String)
  | name (word : String)
  | number (digits : String)
  | truth (value : Bool)
  | operator (operator : Operator)
  | reserved (word : String)
  | endOfInput
  deriving DecidableEq

namespace Token

def text : Token → String
  | identifier word => word
  | name word => word
  | number digits => digits
  | truth true => "true"
  | truth false => "false"
  | operator o => o.char.toString
  | reserved word => word
  | endOfInput => ""

/-- A lowercase word that is not reserved is an identifier, unless it is a truth value. -/
def ofWord (word : String) : Token :=
  if word = "true" then truth true
  else if word = "false" then truth false
  else identifier word

/-- The tokens with which an expression can begin. -/
def startsExpression : Token → Bool
  | identifier _ | name _ | number _ | truth _ => true
  | operator .lambda | operator .openBracket => true
  | _ => false

theorem text_ofWord (word : String) : (ofWord word).text = word := by
  unfold ofWord
  split
  · simp_all [text]
  · split <;> simp_all [text]

end Token

/-- Words go on with ASCII letters, digits and underscores. -/
def isWordChar (c : Char) : Bool := c.isAlphanum || c == '_'

end LambdaCalc
