import LambdaCalc.CommandLine

namespace LambdaCalc

/-- A session at a place where lines come in. `listening` turns false at the end of the input and at
a line that is not UTF-8, `complete` at the latter. -/
structure Console where
  session : Session
  listening : Bool := true
  complete : Bool := true

namespace Console

/-- What a console does next. An answer is followed by the prompt for the next statement. -/
inductive Move
  | ask
  | answer (output : String) (console : Console)
  | leave (output : String) (failure : Option CommandLine.Failure)

def start (budget patience : Nat) : Console := { session := .start [] budget patience }

/-- A console asks for a line when nothing is left of the text at hand, and reads the same statement
once more with that line behind it. -/
def move (c : Console) : Move :=
  let found := c.session.read
  if c.listening && found.2.reader.source.input.isEmpty then .ask
  else match found.2.respond found.1 with
    | .next output next => .answer output { c with session := next }
    | .stop output ending => .leave output (CommandLine.sessionFailure c.complete ending)

/-- Takes in the bytes of a line with its line feed; there are none at the end of the input. -/
def hear (c : Console) (bytes : List UInt8) : Console :=
  if bytes.isEmpty then { c with listening := false }
  else
    let lines := Text.Lines.read bytes
    if lines.2 then { c with session := c.session.extend (Text.Lines.join lines.1) }
    else { c with listening := false, complete := false }

end Console

end LambdaCalc
