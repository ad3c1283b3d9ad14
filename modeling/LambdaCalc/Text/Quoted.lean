import LambdaCalc.Text.Printable

namespace LambdaCalc.Text.Quoted

/-- The quote and the backslash take a backslash, four controls have a letter of their own, and
what cannot be printed is given by its code point in lowercase hexadecimal digits. -/
def escape (c : Char) : List Char :=
  match c with
  | '"' => ['\\', '"']
  | '\\' => ['\\', '\\']
  | '\x00' => ['\\', '0']
  | '\t' => ['\\', 't']
  | '\n' => ['\\', 'n']
  | '\r' => ['\\', 'r']
  | c => if isPrintable c then [c] else
      ['\\', 'u', '\x7b'] ++ Nat.toDigits 16 c.toNat ++ ['\x7d']

def encode (text : String) : String :=
  String.ofList (['"'] ++ text.toList.flatMap escape ++ ['"'])

end LambdaCalc.Text.Quoted
