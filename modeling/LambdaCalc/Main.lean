import LambdaCalc.Console

namespace LambdaCalc.CommandLine

/-- The bytes of the next line with its line feed; none are left at the end of the input. -/
partial def nextLine (input : IO.FS.Stream) (line : ByteArray) : IO ByteArray := do
  let byte ← input.read 1
  if byte.isEmpty || byte.data.contains 10 then return line ++ byte
  else nextLine input (line ++ byte)

/-- Holds a session, and answers the failure with which it ends. A line is read only when it is
needed, so that the session can be held at a terminal. -/
partial def converse (input output : IO.FS.Stream) (c : Console) : IO (Option Failure) := do
  match c.move with
  | .ask => converse input output (c.hear (← nextLine input .empty).toList)
  | .answer text next =>
    output.putStr text
    output.putStr Session.prompt
    output.flush
    converse input output next
  | .leave text failure =>
    output.putStr text
    output.flush
    return failure

/-- The cause and the number that the system gives for a failure. -/
def faultOf : IO.Error → FileFault
  | .noFileOrDirectory .. => .missing
  | .inappropriateType _ code details => .other details code.toNat
  | .permissionDenied _ code details => .other details code.toNat
  | .invalidArgument _ code details => .other details code.toNat
  | .noSuchThing _ code details => .other details code.toNat
  | .resourceExhausted _ code details => .other details code.toNat
  | .hardwareFault code details => .other details code.toNat
  | .otherError code details => .other details code.toNat
  | e => .other (toString e) 0

def readFile (path : String) : IO (Except FileFault ByteArray) := do
  try
    let file ← IO.FS.Handle.mk path .read
    return .ok (← file.readBinToEnd)
  catch e =>
    return .error (faultOf e)

def perform (args : List String) : IO Answer := do
  match Options.parse args with
  | .error stop => return .ofStop stop
  | .ok options =>
    match options.file with
    | some path => return .ofFile (runFile (← readFile path) options.budget)
    | none =>
      let output ← IO.getStdout
      output.putStr Session.prompt
      output.flush
      let failure ← converse (← IO.getStdin) output (.start options.budget patience)
      return .ofSession "" failure

end LambdaCalc.CommandLine

def main (args : List String) : IO UInt32 := do
  let answer ← LambdaCalc.CommandLine.perform args
  IO.print answer.output
  IO.eprint answer.errors
  return answer.code.toUInt32
