namespace LambdaCalc.Text.Lines

/-- What a finished line holds, given its bytes from the last one to the first. One carriage return
is dropped in front of its line feed. -/
def finished : List UInt8 → List UInt8
  | 13 :: line => line.reverse
  | line => line.reverse

/-- The lines of the bytes. The last one needs no line feed, and then keeps a carriage return.
`line` holds what was read of the current line, the last byte first. -/
def split (line : List UInt8) : List UInt8 → List (List UInt8)
  | [] => if line.isEmpty then [] else [line.reverse]
  | 10 :: bytes => finished line :: split [] bytes
  | b :: bytes => split (b :: line) bytes

/-- The lines in front of the first one that is not UTF-8, and whether there is no such line. -/
def decode : List (List UInt8) → List String × Bool
  | [] => ([], true)
  | line :: lines =>
    match String.fromUTF8? ⟨line.toArray⟩ with
    | none => ([], false)
    | some text => (text :: (decode lines).1, (decode lines).2)

def read (bytes : List UInt8) : List String × Bool := decode (split [] bytes)

/-- The lines as one text in which each ends with a line feed. -/
def join (lines : List String) : List Char := lines.flatMap fun line => line.toList ++ ['\n']

end LambdaCalc.Text.Lines
