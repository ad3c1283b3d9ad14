import LambdaCalc.Reader.Statement
import LambdaCalc.Text.Lines

namespace LambdaCalc

/-- The requests stay open until the session answers them; a request to leave stays open for
good. -/
structure Session where
  reader : Reader
  exitRequested : Bool := false
  helpRequested : Bool := false
  deriving DecidableEq

/-- Why a session was left. -/
inductive Ending
  | exit
  | endOfInput
  /-- The bound on the number of turns was met. -/
  | unfinished
  deriving DecidableEq

/-- What a turn writes, and where it leads. -/
inductive Turn
  | next (output : String) (session : Session)
  | stop (output : String) (ending : Ending)
  deriving DecidableEq

namespace Session

/-- Written in front of every statement. -/
def prompt : String := ">> "

def helpText : String :=
  "\n".intercalate [
    "Statements end with ';'. Comments start with '#'.",
    "  x                 variable",
    "  \\x . body         lambda",
    "  (f) arg           application",
    "  'NAME' = expr;    assignment, use NAME afterwards",
    "  expr >;           one beta reduction step",
    "  expr N>;          N beta reduction steps, 0> reduces to normal form",
    "  expr old>new;     rename the binder old to new",
    "  0, 1, ...         Church numerals, true and false are Church booleans",
    "Type 'exit' to quit."]

/-- A session that can be left with `exit` and asked for help with `?`. -/
def start (input : List Char) (budget patience : Nat) : Session where
  reader := {
    source := { input := input, reserved := [("exit", "exit"), ("?", "help")] }
    budget := budget
    patience := patience }

/-- Takes over what a reader did, and opens the requests that it raised. -/
def follow (s : Session) (r : Reader) : Session where
  reader := { r with source := { r.source with raised := [] } }
  exitRequested := s.exitRequested || r.source.raised.contains "exit"
  helpRequested := s.helpRequested || r.source.raised.contains "help"

/-- Reads the next statement. -/
def read (s : Session) : Except Error (Option Command) × Session :=
  match Read.statement s.reader with
  | .ok c r => (.ok c, s.follow r)
  | .error e r => (.error e, s.follow r)

/-- Executes a command and answers with its outcome or its error. -/
def perform (s : Session) (c : Command) : Turn :=
  match c.execute s.reader.patience s.reader.supply with
  | .ok t supply => .next (t.print ++ "\n") { s with reader := { s.reader with supply := supply } }
  | .error e supply =>
      .next (e.message ++ "\n") { s with reader := { s.reader with supply := supply } }

def skipLine (s : Session) : Session :=
  { s with reader := { s.reader with source := s.reader.source.skipLine } }

/-- The help text, and the names that can be used if there are any. -/
def help (s : Session) : String :=
  if s.reader.program.hasNames then
    helpText ++ "\nKnown symbols: " ++ ", ".intercalate s.reader.program.names ++ "\n"
  else helpText ++ "\n"

/-- Answers what was read. After an error the session goes on with the next line. -/
def respond (s : Session) : Except Error (Option Command) → Turn
  | .ok (some c) => s.perform c
  | .ok none => .stop "\n" .endOfInput
  | .error (.reservedWord _) =>
    if s.exitRequested then .stop "" .exit
    else if s.helpRequested then .next s.help { s.skipLine with helpRequested := false }
    else .next "" s.skipLine
  | .error e => .next (e.message ++ "\n") s.skipLine

/-- Adds to what is still to be read. -/
def extend (s : Session) (input : List Char) : Session :=
  { s with reader := { s.reader with source :=
    { s.reader.source with input := s.reader.source.input ++ input } } }

def turn (s : Session) : Turn := s.read.2.respond s.read.1

/-- The outputs of all turns, at most as many as asked, and the ending. -/
def turns : Nat → Session → List String × Ending
  | 0, _ => ([], .unfinished)
  | n + 1, s =>
    match s.turn with
    | .stop output ending => ([prompt ++ output], ending)
    | .next output next =>
      let later := turns n next
      ((prompt ++ output) :: later.1, later.2)

/-- All that a session writes, and its ending. Every turn but the last takes a character at
least. -/
def run (input : List Char) (budget patience : Nat) : String × Ending :=
  let outcome := turns (input.length + 1) (start input budget patience)
  (String.join outcome.1, outcome.2)

end Session

end LambdaCalc
