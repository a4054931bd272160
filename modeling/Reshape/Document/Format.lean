import Reshape.Document.Fault
import Reshape.Text.Blank

/-!
# Document formats

The format of a document comes from a name, from the extension of its file, or from how its text
begins.
-/

namespace Reshape

inductive Format where
  | json | yaml
  deriving DecidableEq

namespace Format

def named? (name : String) : Option Format :=
  if name = "json" then some .json
  else if name = "yaml" ∨ name = "yml" then some .yaml
  else none

def ofName (name : String) : Except Document.Fault Format :=
  let name := name.toLower
  match named? name with
  | some format => .ok format
  | none => .error (.unsupportedFormat name)

def pathParts (path : List Char) : List (List Char) := path.splitOn '/'

/-- The last part of a path that names something; none after two dots. -/
def fileName? (path : List Char) : Option (List Char) :=
  match ((pathParts path).filter fun part => part ≠ [] ∧ part ≠ ['.']).getLast? with
  | some part => if part = ['.', '.'] then none else some part
  | none => none

/-- What stands behind the last dot of a file name, unless that dot is its first character. -/
def extension? (path : List Char) : Option (List Char) := do
  let name ← fileName? path
  let reversed := name.reverse.takeWhile (· ≠ '.')
  if name.length ≤ reversed.length + 1 then none else some reversed.reverse

def ofPath (path : String) : Except Document.Fault Format :=
  match extension? path.toList with
  | none => .error .noExtension
  | some ext =>
    let ext := (String.ofList ext).toLower
    match named? ext with
    | some format => .ok format
    | none => .error (.unknownExtension ext)

/-- Text that begins with a brace, bracket or quote is JSON, and all other text YAML. -/
def detect (text : String) : Format :=
  match Text.trimStart text.toList with
  | '\x7b' :: _ => .json
  | '[' :: _ => .json
  | '"' :: _ => .json
  | _ => .yaml

end Format

end Reshape
