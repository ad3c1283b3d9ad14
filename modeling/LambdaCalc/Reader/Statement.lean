import LambdaCalc.Reader.Expression

namespace LambdaCalc.Read

/-- How many steps a reduction takes: one unless a literal says otherwise. -/
def stepCount : Read Nat := do
  match ← current with
  | .number digits => do advance; count digits
  | .truth value => do advance; return value.toNat
  | _ => return 1

/-- No count above the budget is kept. -/
def clamp (budget steps : Nat) : Nat :=
  if budget ≠ 0 ∧ budget < steps then budget else steps

def beta : Read Conversion := do
  let steps ← stepCount
  expect .arrow .beta
  let budget := (← get).budget
  return .beta ⟨clamp budget steps, budget⟩

def alpha : Read Conversion := do
  let old ← identifier .alpha
  expect .arrow .alpha
  let new ← identifier .alpha
  return .alpha old new

def conversion : Read Conversion := do
  match ← current with
  | .number _ | .truth _ | .operator .arrow => beta
  | .identifier _ => alpha
  | _ => return .identity

def command (room : List Char) : Read Command := do
  let t ← expression room
  return ⟨t, ← conversion⟩

/-- Binds a name to the command that follows. The current token is the quote that begins it. -/
def assignment (room : List Char) : Read Command := do
  advance
  let word ← name .assignedName
  expect .quote .closingQuote
  expect .equals .equalsSign
  let c ← command room
  modify fun r => { r with program := r.program.insert word c }
  return c

/-- The first token that is no semicolon; at most as many tokens are tried as `room` has places. -/
def firstToken : List Char → Read Token
  | [] => throw .unfinished
  | _ :: room => do
    advance
    match ← current with
    | .operator .semicolon => firstToken room
    | token => return token

/-- The next statement of the text, or `none` at its end:

    statement  := assignment? rvalue? ';'
    assignment := "'" NAME "'" '=' rvalue
    rvalue     := expression conversion?
    conversion := '>' | LITERAL '>' | IDENTIFIER '>' IDENTIFIER

Empty statements are passed over. The semicolon is the last that is read. -/
def statement : Read (Option Command) := do
  let room ← room
  match ← firstToken room with
  | .reserved word => throw (.reservedWord word)
  | .endOfInput => return none
  | first => do
    let c ← if first = .operator .quote then assignment room else command room
    if (← current) = .operator .semicolon then
      modify fun r => { r with program := r.program.setLast c }
      return some c
    else refuse .semicolon

end LambdaCalc.Read
