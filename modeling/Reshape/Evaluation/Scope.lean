import Reshape.Value.Basic

/-!
# Scopes

A scope is a chain of bindings that ends in the input. Binding a name never changes the scope it
extends.
-/

namespace Reshape

/-- The name of the input, which a foreach may bind anew. -/
def rootName : String := "$"

def elementName : String := "@"

@[simp]
theorem elementName_ne_rootName : elementName ≠ rootName := by decide

inductive Scope where
  | root (input : Value)
  | bind (name : String) (value : Value) (outer : Scope)

namespace Scope

def get? (name : String) : Scope → Option Value
  | root input => if rootName = name then some input else none
  | bind bound value outer => if bound = name then some value else outer.get? name

def get (scope : Scope) (name : String) : Value := (scope.get? name).getD .null

def depth : Scope → Nat
  | root _ => 0
  | bind _ _ outer => outer.depth + 1

def outer? : Scope → Option Scope
  | root _ => none
  | bind _ _ outer => some outer

@[simp]
theorem get?_bind_self (name : String) (value : Value) (outer : Scope) :
    (bind name value outer).get? name = some value := by
  simp [get?]

@[simp]
theorem get?_bind_of_ne {bound name : String} (h : bound ≠ name) (value : Value) (outer : Scope) :
    (bind bound value outer).get? name = outer.get? name := by
  simp [get?, h]

@[simp]
theorem get_bind_self (name : String) (value : Value) (outer : Scope) :
    (bind name value outer).get name = value := by
  simp [get]

@[simp]
theorem get_bind_of_ne {bound name : String} (h : bound ≠ name) (value : Value) (outer : Scope) :
    (bind bound value outer).get name = outer.get name := by
  simp [get, h]

end Scope

end Reshape
