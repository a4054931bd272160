import Reshape.Evaluation.Expr
import Reshape.Template.Plan

/-!
# Evaluating plans
-/

namespace Reshape

def Key.eval (scope : Scope) : Key → String
  | .literal name => name
  | .computed e => (e.eval scope).text

namespace Plan

mutual

def eval (scope : Scope) : Plan → Value
  | literal v => v
  | expr e => e.eval scope
  | object entries => .object (Value.fieldsOf (evalEntries scope entries))
  | array items => .array (evalItems scope items)
  | foreach source name body =>
    Expr.onArray (fun items => .array (items.map fun v => eval (.bind name v scope) body))
      (eval scope source)

def evalItems (scope : Scope) : List Plan → List Value
  | [] => []
  | item :: rest => eval scope item :: evalItems scope rest

/-- The fields that the entries give, in order and not yet merged. -/
def evalEntries (scope : Scope) : List (Key × Plan) → List (String × Value)
  | [] => []
  | (key, plan) :: rest => (key.eval scope, eval scope plan) :: evalEntries scope rest

end

def apply (plan : Plan) (input : Value) : Value := plan.eval (.root input)

end Plan

end Reshape
