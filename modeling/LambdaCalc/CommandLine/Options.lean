import LambdaCalc.Text.Decimal

namespace LambdaCalc.CommandLine

inductive Switch
  | file
  | budget
  | verbose
  | help
  | version
  deriving DecidableEq

namespace Switch

def ofLetter? : Char → Option Switch
  | 's' => some file
  | 'm' => some budget
  | 'v' => some verbose
  | 'h' => some help
  | 'V' => some version
  | _ => none

def ofWord? : String → Option Switch
  | "src-filepath" => some file
  | "max-iter" => some budget
  | "verbose" => some verbose
  | "help" => some help
  | "version" => some version
  | _ => none

def takesValue : Switch → Bool
  | file | budget => true
  | _ => false

end Switch

/-- Why the arguments give no options to run with. -/
inductive Stop
  | unknownArgument
  | missingValue
  | invalidValue
  | repeatedSwitch
  | unwantedValue
  | help
  | version
  deriving DecidableEq

def Stop.message : Stop → String
  | unknownArgument => "an argument is not known"
  | missingValue => "an option lacks its value"
  | invalidValue => "a number of steps is not valid"
  | repeatedSwitch => "an option is given twice"
  | unwantedValue => "an option takes no value"
  | help => "help was asked for"
  | version => "the version was asked for"

def version : String := "rust-lambda-rewrite 0.1.0\n"

def usage : String :=
  "\n".intercalate [
    "Usage: lambda [OPTIONS]",
    "",
    "  -s, --src-filepath PATH  run this file instead of a session on standard input",
    "  -m, --max-iter COUNT     bound on the steps of one reduction, 0 for none (default 1000)",
    "  -v, --verbose            accepted for a log that is empty",
    "  -h, --help               show this text",
    "  -V, --version            show the version",
    ""]

/-- `budget` bounds every reduction, and `0` sets no bound. -/
structure Options where
  file : Option String := none
  budget : Nat := 1000
  verbose : Bool := false
  deriving DecidableEq

/-- The arguments read so far. A switch that takes a value stays open until the next switch or
the end, together with the value once that was read. -/
structure Parsing where
  options : Options := {}
  seen : List Switch := []
  pending : Option (Switch × Option String) := none
  onlyValues : Bool := false
  deriving DecidableEq

namespace Parsing

/-- Takes a switch with its value. No switch may be given twice. -/
def take (p : Parsing) (s : Switch) (value : String) : Except Stop Parsing :=
  if p.seen.contains s then .error .repeatedSwitch
  else
    let p := { p with seen := s :: p.seen }
    match s with
    | .file => .ok { p with options := { p.options with file := some value } }
    | .budget =>
      match Text.Decimal.signed? value.toList with
      | some n => .ok { p with options := { p.options with budget := n } }
      | none => .error .invalidValue
    | .verbose => .ok { p with options := { p.options with verbose := true } }
    | .help => .error .help
    | .version => .error .version

/-- Takes the switch that is still open. -/
def settle (p : Parsing) : Except Stop Parsing :=
  match p.pending with
  | none => .ok p
  | some (_, none) => .error .missingValue
  | some (s, some value) => take { p with pending := none } s value

/-- A new switch settles the open one before anything else. -/
def give (p : Parsing) (s : Switch) (value : String) : Except Stop Parsing := do
  (← p.settle).take s value

/-- Leaves a switch open for its value. -/
def await (p : Parsing) (s : Switch) : Except Stop Parsing := do
  return { ← p.settle with pending := some (s, none) }

/-- A text that is no switch can only be the value of the open switch. -/
def text (p : Parsing) (value : String) : Except Stop Parsing :=
  match p.pending, p.onlyValues with
  | some (s, none), false => .ok { p with pending := some (s, some value) }
  | _, _ => .error .unknownArgument

/-- A switch with two dashes, whose value can follow an equals sign. -/
def long (p : Parsing) (body : List Char) : Except Stop Parsing :=
  match Switch.ofWord? (String.ofList (body.takeWhile (· != '='))), body.dropWhile (· != '=') with
  | none, _ => .error .unknownArgument
  | some s, _ :: value =>
    if s.takesValue then p.give s (String.ofList value) else .error .unwantedValue
  | some s, [] => if s.takesValue then p.await s else p.give s ""

/-- A value that follows a letter; one equals sign in front of it is dropped. -/
def attached : List Char → String
  | '=' :: value => String.ofList value
  | value => String.ofList value

/-- The letters after one dash. The first one that takes a value takes all that follows it. -/
def short (p : Parsing) : List Char → Except Stop Parsing
  | [] => .ok p
  | c :: cs =>
    match Switch.ofLetter? c with
    | none => .error .unknownArgument
    | some s =>
      if s.takesValue then
        if cs.isEmpty then p.await s else p.give s (attached cs)
      else do short (← p.give s "") cs

/-- Two dashes alone declare that no switch follows. -/
def argument (p : Parsing) (arg : String) : Except Stop Parsing :=
  if p.onlyValues then p.text arg
  else match arg.toList with
    | ['-', '-'] => .ok { p with onlyValues := true }
    | '-' :: '-' :: body => p.long body
    | '-' :: c :: cs => p.short (c :: cs)
    | _ => p.text arg

end Parsing

/-- Options have a long form (`--max-iter=5`, `--max-iter 5`) and a short one (`-m5`, `-m=5`,
`-m 5`), in which flags can share one dash (`-vm5`). -/
def Options.parse (args : List String) : Except Stop Options := do
  let p ← args.foldlM Parsing.argument {}
  return (← p.settle).options

end LambdaCalc.CommandLine
