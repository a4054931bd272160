import Reshape.Evaluation.Scope
import Reshape.Expression.Tree
import Reshape.Json.Embedded
import Reshape.Value.Access
import Reshape.Value.Arrangement

/-!
# Evaluating expressions

Every expression has a value in every scope. An operator that needs an array gives null for
anything else.
-/

namespace Reshape.Expr

def isSpread : Expr → Bool
  | spread _ => true
  | _ => false

/-- What `f` makes of an array's items; null if the value is no array. -/
def onArray (f : List Value → Value) : Value → Value
  | .array items => f items
  | _ => .null

@[simp]
theorem onArray_onArray (f : List Value → Value) (g : List Value → List Value) (v : Value) :
    onArray f (onArray (fun items => .array (g items)) v) = onArray (fun items => f (g items)) v := by
  cases v <;> rfl

def eval : Expr → Scope → Value
  | root, scope => scope.get rootName
  | var name, scope => scope.get name
  | element, scope => scope.get elementName
  | literal v, _ => v
  | field base key, scope =>
    let base' := eval base scope
    let key' := eval key scope
    if base.isSpread then base'.getSpread key' else base'.get key'
  | spread base, scope => eval base scope
  | search base key, scope => .array ((eval base scope).search (eval key scope).text)
  | or a b, scope =>
    let left := eval a scope
    if left.isTruthy then left else eval b scope
  | and a b, scope =>
    let left := eval a scope
    if left.isTruthy then eval b scope else left
  | equals a b, scope => .bool ((eval a scope).equal (eval b scope))
  | add a b, scope => (eval a scope).add (eval b scope)
  | not a, scope => .bool (!(eval a scope).isTruthy)
  | toBool a, scope => .bool (eval a scope).isTruthy
  | dedup base, scope => onArray (fun items => .array (Value.dedup items)) (eval base scope)
  | sort base, scope => onArray (fun items => .array (Value.sort items)) (eval base scope)
  | sortBy base key, scope =>
    onArray
      (fun items =>
        .array (Value.sortByKeys (items.map fun v => eval key (.bind elementName v scope)) items))
      (eval base scope)
  | filter base test, scope =>
    onArray
      (fun items =>
        .array (items.filter fun v => (eval test (.bind elementName v scope)).isTruthy))
      (eval base scope)
  | map base body, scope =>
    onArray (fun items => .array (items.map fun v => eval body (.bind elementName v scope)))
      (eval base scope)
  | reparse base, scope => (eval base scope).reparse

end Reshape.Expr
