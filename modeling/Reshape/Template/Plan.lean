import Reshape.Expression.Tree
import Reshape.Path

/-!
# Plans

A plan says how an output is built. It is what a template compiles to.
-/

namespace Reshape

/-- A computed key is the text of an expression's value. -/
inductive Key where
  | literal (name : String)
  | computed (e : Expr)

inductive Plan where
  | literal (v : Value)
  | expr (e : Expr)
  | object (entries : List (Key × Plan))
  | array (items : List Plan)
  | foreach (source : Plan) (name : String) (body : Plan)

namespace Template

inductive ForeachProblem where
  | length (count : Nat)
  | variable (found : String)
  deriving DecidableEq

def ForeachProblem.message : ForeachProblem → String
  | length count =>
    "expected [\"foreach\", source, \"$var\", template], got " ++
      String.ofList (Text.decimal count) ++ " elements"
  | .variable found => "variable must be a string like \"$item\", got " ++ found

inductive Fault where
  | expression (fault : Expression.Fault)
  | unknownTag (tag : String)
  | malformedForeach (problem : ForeachProblem)
  deriving DecidableEq

def Fault.message : Fault → String
  | expression fault => fault.message
  | unknownTag tag => "unknown template tag: " ++ tag
  | malformedForeach problem => "malformed foreach: " ++ problem.message

structure LocatedFault where
  path : Path
  fault : Fault
  deriving DecidableEq

def LocatedFault.message (f : LocatedFault) : String :=
  "at " ++ f.path.render ++ ": " ++ f.fault.message

end Template

end Reshape
