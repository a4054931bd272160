import Reshape.Value.Coercion

/-!
# Access

Field and index access never fails: what is not there is null. Access into a spread array looks in
each of its elements, and a search collects what any object inside a value holds under a key.
-/

namespace Reshape

namespace Value

/-- The element at a whole index; negative indices count from the end. -/
def elementAt? (items : List Value) (index : Binary64) : Option Value :=
  if !index.isWhole then none
  else
    let place := if index.isNegative then index.add (.ofNat items.length) else index
    if place.isNegative then none else items[place.truncate.toNat]?

def lookup? (key : Value) : Value → Option Value
  | array items => key.index?.bind (elementAt? items)
  | object fields => fields.lookup key.text
  | _ => none

/-- Safe access: null if the base or the key does not count as true, or nothing is there. -/
def get (base key : Value) : Value :=
  if !base.isTruthy || !key.isTruthy then null else (lookup? key base).getD null

def lookupOrNull (key v : Value) : Value :=
  if v.isTruthy then (lookup? key v).getD null else null

/-- An element of a spread array is looked into; one that is an array gives all its elements. -/
def spreadElement (key : Value) : Value → List Value
  | array inner => inner.map (lookupOrNull key)
  | v => [lookupOrNull key v]

/--
Access into a spread value: a key that is no index is looked up in each element of an array, going
one level into elements that are arrays. An index picks an element of the array itself.
-/
def getSpread (base key : Value) : Value :=
  match base with
  | array items =>
    if key.isTruthy && key.index?.isNone then array (items.flatMap (spreadElement key))
    else get base key
  | _ => get base key

mutual

/-- What stands under `key` anywhere inside a value, depth first; hits are not searched. -/
def search (key : String) : Value → List Value
  | array items => searchItems key items
  | object fields => searchFields key fields
  | _ => []

def searchItems (key : String) : List Value → List Value
  | [] => []
  | v :: rest => search key v ++ searchItems key rest

def searchFields (key : String) : List (String × Value) → List Value
  | [] => []
  | (k, v) :: rest => (if k = key then [v] else search key v) ++ searchFields key rest

end

end Value

end Reshape
