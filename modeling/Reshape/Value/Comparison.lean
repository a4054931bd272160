import Reshape.Value.Basic

/-!
# Equality and order of values

Two values are the same if they agree in structure, number forms included; the order of an object's
fields does not matter. Equality compares two numbers by value and all else by sameness. The order
that sorting uses ranks types first.
-/

namespace Reshape

namespace Value

mutual

def same : Value → Value → Bool
  | null, null => true
  | bool a, bool b => a == b
  | number m, number n => m.same n
  | string s, string t => s == t
  | array items, array others => sameItems items others
  | object fields, object others => fields.length == others.length && fieldsIn others fields
  | _, _ => false

def sameItems : List Value → List Value → Bool
  | [], [] => true
  | v :: rest, w :: others => same v w && sameItems rest others
  | _, _ => false

def fieldsIn (others : List (String × Value)) : List (String × Value) → Bool
  | [] => true
  | (k, v) :: rest =>
    (match others.lookup k with
      | some w => same v w
      | none => false) && fieldsIn others rest

end

/-- Equality without conversion between types; `1` equals `1.0`. -/
def equal : Value → Value → Bool
  | number m, number n => m.toBinary64.equal n.toBinary64
  | a, b => same a b

def rank : Value → Nat
  | null => 0
  | bool false => 1
  | bool true => 2
  | number _ => 3
  | string _ => 4
  | array _ => 5
  | object _ => 6

mutual

/--
The order of values: by rank, then numbers by size, strings by code points and arrays item by item,
a beginning before what it begins. Objects tie.
-/
def order : Value → Value → Ordering
  | number m, number n => compare m.toBinary64.orderKey n.toBinary64.orderKey
  | string s, string t => compare s t
  | array items, array others => orderItems items others
  | a, b => compare a.rank b.rank

def orderItems : List Value → List Value → Ordering
  | [], [] => .eq
  | [], _ :: _ => .lt
  | _ :: _, [] => .gt
  | v :: rest, w :: others => (order v w).then (orderItems rest others)

end

def le (a b : Value) : Bool := (order a b).isLE

end Value

end Reshape
