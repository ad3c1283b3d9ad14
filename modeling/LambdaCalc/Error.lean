import LambdaCalc.Token
import LambdaCalc.Text.Quoted

namespace LambdaCalc

/-- Numerals above this bound are refused: a numeral is a chain of as many applications. -/
def numeralBound : Nat := 10000

/-- What the reader was looking for when it met another token. -/
inductive Expectation
  | expression
  | lambdaHead
  | lambdaDot
  | closingBracket
  | assignedName
  | closingQuote
  | equalsSign
  | beta
  | alpha
  | semicolon
  | endOfInput
  deriving DecidableEq

def Expectation.message : Expectation → String
  | expression => "Expected an expression"
  | lambdaHead => "Lambda head must be a lowercase identifier"
  | lambdaDot => "Malformed lambda"
  | closingBracket => "Unmatched bracket"
  | assignedName => "Only names starting with an uppercase letter may be assigned to"
  | closingQuote => "Unclosed definition"
  | equalsSign => "Defined symbol must be assigned to"
  | beta => "Malformed beta reduction"
  | alpha => "Malformed alpha conversion"
  | semicolon => "Missing semicolon"
  | endOfInput => "Unexpected trailing input"

inductive Error
  /-- No token begins with this character. -/
  | unrecognized (c : Char)
  /-- A word character follows a run of digits. -/
  | malformedLiteral (digits : String) (next : Char)
  /-- Another token stands where one was expected. -/
  | unexpected (wanted : Expectation) (found : Token)
  /-- Nothing was assigned to the name. -/
  | undefinedName (name : String)
  /-- The numeral lies above `numeralBound`. -/
  | numeralTooLarge (digits : String)
  /-- The count does not fit into 64 bits. -/
  | countTooLarge (digits : String)
  /-- A reserved word was met. -/
  | reservedWord (word : String)
  /-- The new name would capture a variable or be captured. -/
  | nameClash (old new : String)
  /-- There was no normal form within the budget. -/
  | budgetExceeded (budget : Nat)
  /-- Only lowercase words and single special characters can be reserved. -/
  | notReservable (word : String)
  /-- The bound on unlimited work was reached before an answer was known. -/
  | unfinished
  deriving DecidableEq

namespace Error

/-- The end of the input has no text, so it is named. -/
def foundText (found : Token) : String :=
  match found with
  | .endOfInput => "end of input"
  | token => token.text

def badInput (cause : String) : String := "Error: unexpected syntax! " ++ cause

def message : Error → String
  | unrecognized c => badInput ("unrecognized character '" ++ c.toString ++ "'")
  | malformedLiteral digits next =>
      badInput ("malformed literal '" ++ digits ++ next.toString ++ "'")
  | unexpected wanted found =>
      badInput (wanted.message ++ ", found '" ++ foundText found ++ "'")
  | undefinedName name => badInput ("Undefined symbol: " ++ name)
  | numeralTooLarge digits =>
      badInput ("Numeral too large: " ++ digits ++ ", at most " ++ toString numeralBound ++
        " is supported")
  | countTooLarge digits => badInput ("Number too large: " ++ digits)
  | reservedWord word => "Reserved symbol encountered: " ++ word
  | nameClash old new =>
      "Requested name already exists! Cannot rename " ++ old ++ " to " ++ new ++ "."
  | budgetExceeded budget =>
      "Maximum iterations exceeded! No normal form after " ++ toString budget ++ " steps."
  | notReservable word =>
      "Invalid reserved symbol " ++ Text.Quoted.encode word ++
        ": only lowercase words or single characters may be reserved"
  | unfinished => "The bound on unlimited work was reached."

end Error

end LambdaCalc
