import LambdaCalc.Files
import LambdaCalc.Script
import LambdaCalc.Session
import LambdaCalc.CommandLine.Options

namespace LambdaCalc.CommandLine

/-- Why the bytes of an input cannot be read. -/
inductive InputFault
  | unreadable (fault : FileFault)
  | notText
  deriving DecidableEq

/-- A run fails on its input or on the program in it. -/
inductive Failure
  | input (fault : InputFault)
  | program (error : Error)
  deriving DecidableEq

def InputFault.message : InputFault → String
  | unreadable fault => "Input file error: " ++ fault.message
  | notText => "Input file error: stream did not contain valid UTF-8"

def Failure.message : Failure → String
  | input fault => fault.message
  | program error => error.message

/-- No reduction takes as many steps as this. -/
def patience : Nat := Nat.pow 2 62

/-- Runs a file of which these bytes were read. -/
def runFile (bytes : Except FileFault ByteArray) (budget : Nat) : Except Failure String :=
  match bytes with
  | .error fault => .error (.input (.unreadable fault))
  | .ok bytes =>
    match String.fromUTF8? bytes with
    | none => .error (.input .notText)
    | some text =>
      match Script.run text.toList budget patience with
      | .ok terms => .ok (Script.print terms)
      | .error e => .error (.program e)

/-- The fault of a session's input counts only if the session reached it. -/
def sessionFailure (complete : Bool) (ending : Ending) : Option Failure :=
  if complete = false ∧ ending = .endOfInput then some (.input .notText) else none

/-- Holds a session on these bytes: what it writes, and the failure with which it ends. -/
def runSession (bytes : List UInt8) (budget : Nat) : String × Option Failure :=
  let lines := Text.Lines.read bytes
  let outcome := Session.run (Text.Lines.join lines.1) budget patience
  (outcome.1, sessionFailure lines.2 outcome.2)

/-- What a run leaves behind. -/
structure Answer where
  code : Nat
  output : String
  errors : String
  deriving DecidableEq

namespace Answer

def failed (output message : String) : Answer := ⟨1, output, message ++ "\n"⟩

/-- The outcomes of a file end with a line feed, unless there are none. -/
def ofFile : Except Failure String → Answer
  | .ok "" => ⟨0, "", ""⟩
  | .ok text => ⟨0, text ++ "\n", ""⟩
  | .error failure => failed "" failure.message

def ofSession (output : String) : Option Failure → Answer
  | none => ⟨0, output, ""⟩
  | some failure => failed output failure.message

/-- Arguments that ask for help or the version are answered on standard output. -/
def ofStop : Stop → Answer
  | .help => ⟨0, usage, ""⟩
  | .version => ⟨0, version, ""⟩
  | stop => ⟨2, "", "error: " ++ stop.message ++ "\n\n" ++ usage⟩

end Answer

/-- Runs the program with these arguments, files and standard input. -/
def run (args : List String) (files : Files) (input : List UInt8) : Answer :=
  match Options.parse args with
  | .error stop => .ofStop stop
  | .ok options =>
    match options.file with
    | some path => .ofFile (runFile (files.read path) options.budget)
    | none =>
      let outcome := runSession input options.budget
      .ofSession outcome.1 outcome.2

end LambdaCalc.CommandLine
