namespace LambdaCalc

/-- Why no bytes can be read along a path. -/
inductive FileFault
  | missing
  | notFolder
  | isFolder
  | nameTooLong
  /-- Another cause, with the number that the system gives it. -/
  | other (cause : String) (code : Nat)
  deriving DecidableEq

namespace FileFault

def cause : FileFault → String
  | missing => "No such file or directory"
  | notFolder => "Not a directory"
  | isFolder => "Is a directory"
  | nameTooLong => "File name too long"
  | other cause _ => cause

def code : FileFault → Nat
  | missing => 2
  | notFolder => 20
  | isFolder => 21
  | nameTooLong => 36
  | other _ code => code

def message (f : FileFault) : String := f.cause ++ " (os error " ++ toString f.code ++ ")"

end FileFault

/-- What a path can lead to. A broken file is there but cannot be read. -/
inductive Entry
  | file (bytes : ByteArray)
  | broken (fault : FileFault)
  | folder (entries : List (String × Entry))

/-- `working` names the folders from the root to the one in which relative paths start. -/
structure Files where
  root : Entry
  working : List String

namespace Files

/-- No name may take more bytes than this. -/
def nameBound : Nat := 255

/-- All paths take fewer bytes than this. -/
def pathBound : Nat := 4096

/-- Follows names from an entry on, where every name but the last must lead to a folder. `above`
holds the folders that lead to the entry, the innermost one first; the folder above the root is the
root. -/
def follow (above : List Entry) : Entry → List String → Except FileFault Entry
  | entry, [] => .ok entry
  | .folder entries, name :: names =>
    if name = "" ∨ name = "." then follow above (.folder entries) names
    else if name = ".." then
      match above with
      | [] => follow [] (.folder entries) names
      | parent :: above => follow above parent names
    else if nameBound < name.utf8ByteSize then .error .nameTooLong
    else match entries.lookup name with
      | some entry => follow (.folder entries :: above) entry names
      | none => .error .missing
  | _, _ :: _ => .error .notFolder

/-- A path that begins with a slash starts at the root. -/
def entry (f : Files) (path : String) : Except FileFault Entry :=
  if path = "" then .error .missing
  else if pathBound ≤ path.utf8ByteSize then .error .nameTooLong
  else match path.splitOn "/" with
    | "" :: names => follow [] f.root names
    | names => follow [] f.root (f.working ++ names)

def read (f : Files) (path : String) : Except FileFault ByteArray := do
  match ← f.entry path with
  | .file bytes => .ok bytes
  | .broken fault => .error fault
  | .folder _ => .error .isFolder

end Files

end LambdaCalc
