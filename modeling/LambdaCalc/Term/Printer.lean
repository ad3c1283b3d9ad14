import LambdaCalc.Term.Basic

namespace LambdaCalc

namespace Term

/-- The text of a term, part by part. The function of an application stands in brackets and the
argument never does, which is how an application is read back. -/
def text : Term → String
  | var _ v => v.name
  | lam _ head body => "\\" ++ head.name ++ " . " ++ body.text
  | app _ fn arg => "(" ++ fn.text ++ ") " ++ arg.text

/-- What is still to be written: a whole term, or a text between terms. -/
inductive Pending
  | term (t : Term)
  | text (s : String)

/-- Writing a term takes as many steps as it has nodes, and one for the text in an application. -/
def weight : Term → Nat
  | var _ _ => 1
  | lam _ _ body => body.weight + 1
  | app _ fn arg => fn.weight + arg.weight + 2

def Pending.weight : Pending → Nat
  | term t => t.weight
  | text _ => 1

def Pending.totalWeight : List Pending → Nat
  | [] => 0
  | pending :: rest => pending.weight + totalWeight rest

/-- Writes what is pending after the text written so far, the first item first. The pending items
take the place of nested calls, so that deep terms need no deep stack. -/
def write : List Pending → String → String
  | [], out => out
  | .text s :: rest, out => write rest (out ++ s)
  | .term (var _ v) :: rest, out => write rest (out ++ v.name)
  | .term (lam _ head body) :: rest, out =>
      write (.term body :: rest) (out ++ "\\" ++ head.name ++ " . ")
  | .term (app _ fn arg) :: rest, out =>
      write (.term fn :: .text ") " :: .term arg :: rest) (out ++ "(")
termination_by pending => Pending.totalWeight pending
decreasing_by
  all_goals
    simp only [Pending.totalWeight, Pending.weight, Term.weight]
    omega

def print (t : Term) : String := write [.term t] ""

def Pending.toText : Pending → String
  | term t => t.text
  | text s => s

/-- Writing appends the texts of the pending items and touches nothing else. -/
theorem write_eq (pending : List Pending) (out : String) :
    write pending out = out ++ String.join (pending.map Pending.toText) := by
  fun_induction write pending out with
  | case1 out => simp
  | case2 out s rest ih =>
    rw [ih]
    simp [Pending.toText, String.append_assoc]
  | case3 out node v rest ih =>
    rw [ih]
    simp [Pending.toText, text, String.append_assoc]
  | case4 out node head body rest ih =>
    rw [ih]
    simp [Pending.toText, text, String.append_assoc]
  | case5 out node fn arg rest ih =>
    rw [ih]
    simp [Pending.toText, text, String.append_assoc]

theorem print_eq_text (t : Term) : t.print = t.text := by
  rw [print, write_eq]
  simp [Pending.toText]

end Term

end LambdaCalc
