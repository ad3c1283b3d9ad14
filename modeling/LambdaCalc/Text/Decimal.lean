namespace LambdaCalc.Text.Decimal

/-- The value of the digits read so far is ten times the value before the last one, plus it. -/
def value (digits : List Char) : Nat :=
  digits.foldl (fun n c => 10 * n + (c.toNat - '0'.toNat)) 0

/-- A count is one digit or more and nothing else. -/
def isCount (text : List Char) : Bool := !text.isEmpty && text.all Char.isDigit

/-- The counts that fit into 64 bits lie below this bound. -/
def countBound : Nat := Nat.pow 2 64

/-- The value of a run of digits, unless it needs more than 64 bits. -/
def bounded? (digits : List Char) : Option Nat :=
  if value digits < countBound then some (value digits) else none

/-- Reads a count as an option takes it: one plus sign may stand in front of it. -/
def signed? (text : List Char) : Option Nat :=
  let digits := match text with
    | '+' :: rest => rest
    | _ => text
  if isCount digits then bounded? digits else none

theorem value_append (ds : List Char) (c : Char) :
    value (ds ++ [c]) = 10 * value ds + (c.toNat - '0'.toNat) := by
  simp [value]

theorem bounded?_eq_some_iff (ds : List Char) (n : Nat) :
    bounded? ds = some n ↔ value ds = n ∧ n < countBound := by
  simp only [bounded?]
  split
  · simp only [Option.some.injEq]
    constructor
    · rintro rfl
      exact ⟨rfl, ‹_›⟩
    · exact fun h => h.1
  · simp only [reduceCtorEq, false_iff, not_and]
    rintro rfl
    assumption

end LambdaCalc.Text.Decimal
