import Reshape.Expression.Postorder
import Reshape.Value.Basic

/-!
# Expression trees
-/

namespace Reshape

/--
`spread` marks an array for access in each of its elements. `element` is the element that a sort
key, filter or map looks at.
-/
inductive Expr where
  | root
  | field (base key : Expr)
  | spread (base : Expr)
  | search (base key : Expr)
  | or (a b : Expr)
  | and (a b : Expr)
  | equals (a b : Expr)
  | add (a b : Expr)
  | not (a : Expr)
  | toBool (a : Expr)
  | sort (base : Expr)
  | sortBy (base key : Expr)
  | filter (base test : Expr)
  | map (base body : Expr)
  | dedup (base : Expr)
  | reparse (base : Expr)
  | literal (v : Value)
  | var (name : String)
  | element

namespace Expr

/-- The element is used outside of the argument of a sort, filter or map. -/
def usesElement : Expr → Bool
  | element => true
  | root => false
  | literal _ => false
  | var _ => false
  | sort base => base.usesElement
  | sortBy base _ => base.usesElement
  | filter base _ => base.usesElement
  | map base _ => base.usesElement
  | spread a => a.usesElement
  | not a => a.usesElement
  | toBool a => a.usesElement
  | dedup a => a.usesElement
  | reparse a => a.usesElement
  | field a b => a.usesElement || b.usesElement
  | search a b => a.usesElement || b.usesElement
  | or a b => a.usesElement || b.usesElement
  | and a b => a.usesElement || b.usesElement
  | equals a b => a.usesElement || b.usesElement
  | add a b => a.usesElement || b.usesElement

def unary? (a : Expr) : Operator → Option Expr
  | .rootField => some (field root a)
  | .toBool => some (toBool a)
  | .dedup => some (dedup a)
  | .not => some (not a)
  | .sort => some (sort a)
  | .json => some (reparse a)
  | _ => none

def binary? (a b : Expr) : Operator → Option Expr
  | .field => some (field a b)
  | .arrayMap => some (field (spread a) b)
  | .search => some (search a b)
  | .add => some (add a b)
  | .equals => some (equals a b)
  | .sortBy => some (sortBy a b)
  | .filter => some (filter a b)
  | .map => some (map a b)
  | .and => some (and a b)
  | .or => some (or a b)
  | _ => none

def ofOperator? (o : Operator) : List Expr → Option Expr
  | [a] => unary? a o
  | [a, b] => binary? a b o
  | _ => none

end Expr

namespace Expression

/-- A word is the root, a variable that must be in scope, or literal text. -/
def operand (scope : List String) (word : String) : Except Fault Expr :=
  if word = "$" then .ok .root
  else if word.toList.head? = some '$' then
    if word ∈ scope then .ok (.var word) else .error (.undefinedVariable word)
  else .ok (.literal (.string word))

def reduce (index : Nat) (o : Operator) (stack : List Expr) : Except Fault (List Expr) :=
  if stack.length < o.arity then .error (.malformed index (.missingOperand o))
  else
    match Expr.ofOperator? o (stack.take o.arity).reverse with
    | some e => .ok (e :: stack.drop o.arity)
    | none => .error (.malformed index (.missingOperand o))

def push (scope : List String) (index : Nat) (stack : List Expr) :
    Item → Except Fault (List Expr)
  | .word text => do .ok ((← operand scope text) :: stack)
  | .element => .ok (.element :: stack)
  | .root => .ok (.root :: stack)
  | .op o => reduce index o stack

def pushAll (scope : List String) (index : Nat) (stack : List Expr) :
    List Item → Except Fault (List Expr)
  | [] => .ok stack
  | item :: rest => do pushAll scope (index + 1) (← push scope index stack item) rest

def build (scope : List String) (items : List Item) : Except Fault Expr := do
  match ← pushAll scope 0 [] items with
  | [] => .error .empty
  | [e] => if e.usesElement then .error .unboundElement else .ok e
  | stack => .error (.malformed 0 (.adjacentOperands stack.length))

def read (scope : List String) (text : String) : Except Fault Expr := do
  build scope (← postorder (← Token.ofText text))

end Expression

end Reshape
