import LambdaCalc.Token.Lexeme

namespace LambdaCalc

/-- Lowercase words can be reserved, and single characters that are neither blanks nor parts of
words. -/
def isReservable (word : String) : Bool :=
  match word.toList with
  | [] => false
  | [c] => c.isLower || !isWordChar c && !Text.isBlank c
  | c :: cs => c.isLower && cs.all isWordChar

/-- A text that is read token by token. Each reserved word has a signal, which is raised whenever
the word is read; `raised` lists the signals raised so far, the first one first. -/
structure Source where
  input : List Char
  reserved : List (String × String) := []
  raised : List String := []
  deriving DecidableEq

namespace Source

def isReserved (s : Source) (word : String) : Bool := (s.reserved.lookup word).isSome

/-- A word that is reserved once more takes the new signal. -/
def reserve (s : Source) (word signal : String) : Except Error Source :=
  if isReservable word then
    .ok { s with reserved := (word, signal) :: s.reserved.filter (·.1 != word) }
  else .error (.notReservable word)

def release (s : Source) (word : String) : Source :=
  { s with reserved := s.reserved.filter (·.1 != word) }

/-- One place more than there are characters to be read. The reader takes places from this list
where it needs a bound on its recursion, since a list is at hand and its length is not. -/
def room (s : Source) : List Char := ' ' :: s.input

/-- Discards the rest of the line. -/
def skipLine (s : Source) : Source := { s with input := afterLine s.input }

/-- The signals that a token raises: that of the reserved word, and none for other tokens. -/
def signals (s : Source) : Except Error Token → List String
  | .ok (.reserved word) => (s.reserved.lookup word).toList
  | _ => []

def next (s : Source) : Except Error Token × Source :=
  let found := Token.read s.isReserved s.input
  (found.1, { s with input := found.2, raised := s.raised ++ s.signals found.1 })

theorem input_next (s : Source) : s.next.2.input = (Token.read s.isReserved s.input).2 := rfl

end Source

end LambdaCalc
