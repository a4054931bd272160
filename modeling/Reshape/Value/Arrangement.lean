import Reshape.StableSort
import Reshape.Value.Comparison

/-!
# Arrangements of a list of values

Removing repeated values and sorting. Both are stable: of equal values the first is kept, and values
that tie keep their order.
-/

namespace Reshape

namespace Value

/-- The values of `items` that equal none of `seen` and no earlier one, in order. -/
def dedupAfter (seen : List Value) : List Value → List Value
  | [] => []
  | v :: rest =>
    if seen.any (equal · v) then dedupAfter seen rest else v :: dedupAfter (seen ++ [v]) rest

def dedup (items : List Value) : List Value := dedupAfter [] items

def sort (items : List Value) : List Value := stableSort le items

def sortByKeys (keys items : List Value) : List Value :=
  (stableSort (fun a b => le a.1 b.1) (keys.zip items)).map (·.2)

end Value

end Reshape
