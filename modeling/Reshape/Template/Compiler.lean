import Reshape.Json.Writer
import Reshape.Template.Plan
import Reshape.Text.Alphanumeric

/-!
# Compiling templates

A template is a value. Strings are expressions, objects build objects and arrays carry a tag as
their first item. The compiler keeps the names bound by the foreach templates around the place that
it works on; a name leaves when the body it is bound in is done, however that ends.
-/

namespace Reshape.Template

/-- A computation that may fail and reads and changes the names in scope. -/
abbrev Compiler (α : Type) := ExceptT LocatedFault (StateM (List String)) α

namespace Compiler

def fail (path : Path) (fault : Fault) : Compiler α := throw ⟨path, fault⟩

def withName (name : String) (body : Compiler α) : Compiler α := fun names =>
  let (result, names) := body.run.run (name :: names)
  (result, names.tail)

/-- A dollar sign and then letters, digits and underscores. -/
def isVariableName (name : String) : Bool :=
  match name.toList with
  | '$' :: rest => rest.all fun c => Text.isAlphanumeric c || c == '_'
  | _ => false

def expression (text : String) (path : Path) : Compiler Expr := do
  match Expression.read (← get) text with
  | .ok e => pure e
  | .error fault => fail path (.expression fault)

/-- Keys that begin like an expression are computed; a leading backslash prevents that. -/
def key (text : String) (path : Path) : Compiler Key := do
  match text.toList with
  | '.' :: _ => return .computed (← expression text path)
  | '$' :: _ => return .computed (← expression text path)
  | '(' :: _ => return .computed (← expression text path)
  | '\\' :: rest => return .literal (String.ofList rest)
  | _ => return .literal text

def planOf : Expr → Plan
  | .literal v => .literal v
  | e => .expr e

mutual

def template (path : Path) : Value → Compiler Plan
  | .array items => tagged path items
  | .object fields => do return .object (← entries path fields)
  | .string text => do return planOf (← expression text path)
  | v => return .literal v

def tagged (path : Path) : List Value → Compiler Plan
  | [] => fail path (.unknownTag "empty array")
  | .string tag :: rest =>
    if tag = "literal" then do return .array (← items path 1 rest)
    else if tag = "foreach" then foreach path rest
    else fail path (.unknownTag (Json.write 0 (.string tag)))
  | v :: _ => fail path (.unknownTag (Json.write 0 v))

def foreach (path : Path) : List Value → Compiler Plan
  | [source, .string name, body] =>
    if isVariableName name then do
      let source ← template (path ++ [.item 1]) source
      let body ← withName name (template (path ++ [.item 3]) body)
      return .foreach source name body
    else fail path (.malformedForeach (.variable (Json.write 0 (.string name))))
  | [_, v, _] => fail path (.malformedForeach (.variable (Json.write 0 v)))
  | rest => fail path (.malformedForeach (.length (rest.length + 1)))

def items (path : Path) (index : Nat) : List Value → Compiler (List Plan)
  | [] => return []
  | v :: rest => do
    let plan ← template (path ++ [.item index]) v
    return plan :: (← items path (index + 1) rest)

def entries (path : Path) : List (String × Value) → Compiler (List (Key × Plan))
  | [] => return []
  | (k, v) :: rest => do
    let path' := path ++ [.field k]
    let key ← key k path'
    let plan ← template path' v
    return (key, plan) :: (← entries path rest)

end

end Compiler

def compile (v : Value) : Except LocatedFault Plan := ((Compiler.template [] v).run.run []).1

end Reshape.Template
