import Reshape.Value.Access

/-!
# Access into spread arrays

A spread array is opened one level deep, and each element that this gives is accessed on its own:
there is no other access than the plain one.
-/

namespace Reshape.Value

/-- The elements of an array, anything else being its only element. -/
def opened : Value → List Value
  | array inner => inner
  | v => [v]

theorem lookupOrNull_eq_get {key : Value} (hKey : key.isTruthy = true) (v : Value) :
    lookupOrNull key v = v.get key := by
  rw [lookupOrNull, get, hKey]
  cases v.isTruthy with
  | false => rfl
  | true => rfl

theorem spreadElement_eq_map_get {key : Value} (hKey : key.isTruthy = true) (v : Value) :
    spreadElement key v = v.opened.map (·.get key) := by
  cases v with
  | array inner => exact List.map_congr_left fun v _ => lookupOrNull_eq_get hKey v
  | _ => exact congrArg (fun v => [v]) (lookupOrNull_eq_get hKey _)

/--
Under a key that is no index, a spread array holds what its elements hold, those of inner arrays
being elements too. They stand in their order, and each is accessed once.
-/
theorem getSpread_eq_map_get {key : Value} (hKey : key.isTruthy = true)
    (hIndex : key.index? = none) (items : List Value) :
    (array items).getSpread key = array ((items.flatMap opened).map (·.get key)) := by
  have hSpread : (array items).getSpread key = array (items.flatMap (spreadElement key)) := by
    rw [getSpread, hKey, hIndex]
    rfl
  have hElement : spreadElement key = fun v => v.opened.map (·.get key) :=
    funext (spreadElement_eq_map_get hKey)
  rw [hSpread, List.map_flatMap, hElement]

/-- An array two levels down is an element like any other, and has nothing under a name. -/
theorem getSpread_eq_map_get_nested :
    let key := string "bar"
    let bar (v : Value) := object [("bar", v)]
    let items := [null, array [bar (bool true), array [bar (bool true)], bool false], array [],
      bar (string "x"), string "bar"]
    key.isTruthy = true ∧ key.index? = none ∧
      (array items).getSpread key = array ((items.flatMap opened).map (·.get key)) ∧
      (array items).getSpread key = array [null, bool true, null, null, string "x", null] := by
  intro key bar items
  have hKey : key.isTruthy = true := by decide
  have hIndex : key.index? = none := rfl
  exact ⟨hKey, hIndex, getSpread_eq_map_get hKey hIndex items, rfl⟩

end Reshape.Value
