import Reshape.Evaluation.Expr
import Reshape.Proofs.StableSort
import Reshape.Proofs.Value.Order

/-!
# Sorting arrays

A sort rearranges the items of an array by their keys, and keeps the order of items whose keys tie.
A sort without a key is the sort by the items themselves.
-/

namespace Reshape

namespace Value

/-- Keys and items are paired one by one, so that each item is sorted by its own key. -/
@[simp]
theorem sortByKeys_map (key : Value → Value) (items : List Value) :
    sortByKeys (items.map key) items = stableSort (fun v w => le (key v) (key w)) items := by
  have hPairs : (items.map key).zip items = items.map fun v => (key v, v) := by
    simpa using List.zip_map' (f := key) (g := id) (l := items)
  have hSort : stableSort (fun a b => le a.1 b.1) (items.map fun v => (key v, v)) =
      (stableSort (fun v w => le (key v) (key w)) items).map fun v => (key v, v) :=
    stableSort_map fun _ _ => rfl
  rw [sortByKeys, hPairs, hSort, List.map_map]
  exact List.map_id _

theorem filter_sortByKeys (key : Value → Value) (test : Value → Bool) (items : List Value) :
    (sortByKeys (items.map key) items).filter test =
      sortByKeys ((items.filter test).map key) (items.filter test) := by
  rw [sortByKeys_map, sortByKeys_map]
  exact filter_stableSort (fun u v w => transitive_le (key u) (key v) (key w))
    (fun v w => total_le (key v) (key w)) test items

theorem exists_places_sortByKeys (key : Value → Value) (items : List Value) :
    ∃ places : List (Fin items.length), places.Perm (List.finRange items.length) ∧
      sortByKeys (items.map key) items = places.map (fun i => items[i]) ∧
      places.Pairwise fun i j =>
        order (key items[i]) (key items[j]) ≠ .gt ∧
          (order (key items[i]) (key items[j]) = .eq → i < j) := by
  obtain ⟨places, hPerm, hSort, hPairwise⟩ := exists_places_stableSort
    (fun u v w => transitive_le (key u) (key v) (key w)) (fun v w => total_le (key v) (key w)) items
  refine ⟨places, hPerm, by rw [sortByKeys_map, hSort], hPairwise.imp fun {i j} h => ?_⟩
  refine ⟨le_iff_ne_gt.mp h.1, fun hTie => h.2 ?_⟩
  rw [le, order_swap, hTie]
  rfl

end Value

namespace Expr

/-- What an item of an array is sorted by. -/
def keyOf (key : Expr) (scope : Scope) (v : Value) : Value := key.eval (.bind elementName v scope)

@[simp]
theorem keyOf_element (scope : Scope) (v : Value) : keyOf element scope v = v := by
  simp [keyOf, eval]

theorem eval_sort_eq_sortBy_element (base : Expr) (scope : Scope) :
    (sort base).eval scope = (sortBy base element).eval scope := by
  have hSort (items : List Value) :
      Value.sort items = Value.sortByKeys (items.map (keyOf element scope)) items := by
    simp [Value.sort]
  simp only [eval, hSort]
  rfl

theorem eval_filter_sortBy (base key test : Expr) (scope : Scope) :
    (filter (sortBy base key) test).eval scope = (sortBy (filter base test) key).eval scope := by
  have hItems (items : List Value) := Value.filter_sortByKeys (keyOf key scope)
    (fun v => (test.eval (.bind elementName v scope)).isTruthy) items
  simp only [eval, onArray_onArray]
  congr 1
  funext items
  exact congrArg Value.array (hItems items)

/--
The result of a sort has the items at all places of the array, each once, in an order of places in
which no key is greater than a later one and places whose keys tie ascend.
-/
theorem eval_sortBy_eq_places {base key : Expr} {scope : Scope} {items : List Value}
    (h : base.eval scope = .array items) :
    (∃ places : List (Fin items.length), places.Perm (List.finRange items.length) ∧
      (sortBy base key).eval scope = .array (places.map fun i => items[i]) ∧
      places.Pairwise fun i j =>
        (key.keyOf scope items[i]).order (key.keyOf scope items[j]) ≠ .gt ∧
          ((key.keyOf scope items[i]).order (key.keyOf scope items[j]) = .eq → i < j)) ∧
    (sort base).eval scope = (sortBy base element).eval scope := by
  obtain ⟨places, hPerm, hSort, hPairwise⟩ :=
    Value.exists_places_sortByKeys (key.keyOf scope) items
  refine ⟨⟨places, hPerm, ?_, hPairwise⟩, eval_sort_eq_sortBy_element base scope⟩
  rw [← hSort, eval, h]
  rfl

/-- Keys of three types, one of them in two forms, and an item without a key. -/
theorem eval_sortBy_eq_places_ties :
    let items : List Value :=
      [.object [("k", .string "a")], .object [("k", .number (.integer 1))], .object [],
        .object [("k", .number (.double (.ofInt 1))), ("n", .null)]]
    let key := field element (literal (.string "k"))
    (literal (.array items)).eval (.root .null) = .array items ∧
      ∃ places : List (Fin items.length), places.Perm (List.finRange items.length) ∧
        (sortBy (literal (.array items)) key).eval (.root .null) =
          .array (places.map fun i => items[i]) ∧
        places.Pairwise fun i j =>
          (key.keyOf (.root .null) items[i]).order (key.keyOf (.root .null) items[j]) ≠ .gt ∧
            ((key.keyOf (.root .null) items[i]).order (key.keyOf (.root .null) items[j]) = .eq →
              i < j) := by
  intro items key
  have hBase : (literal (.array items)).eval (.root .null) = .array items := rfl
  exact ⟨hBase, (eval_sortBy_eq_places hBase).1⟩

/-- A filter goes in front of a sort or behind it; both ways give null if the base is no array. -/
theorem eval_filter_sort (base key test : Expr) (scope : Scope) :
    (filter (sortBy base key) test).eval scope = (sortBy (filter base test) key).eval scope ∧
      (filter (sort base) test).eval scope = (sort (filter base test)).eval scope := by
  refine ⟨eval_filter_sortBy base key test scope, ?_⟩
  -- A sort without a key has the element as its key, below the filter as well as above it.
  have hSort := eval_sort_eq_sortBy_element base scope
  calc (filter (sort base) test).eval scope
      = (filter (sortBy base element) test).eval scope := by
        rw [eval, hSort]
        rfl
    _ = (sortBy (filter base test) element).eval scope := eval_filter_sortBy base element test scope
    _ = (sort (filter base test)).eval scope := (eval_sort_eq_sortBy_element _ scope).symm

end Expr

end Reshape
