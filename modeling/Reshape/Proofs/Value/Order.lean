import Reshape.Value.Comparison

/-!
# The order of values

Sorting relies on a total preorder. The order of values is one: it goes by rank, then by number,
then by string and then by items, and each of these criteria is seen the same from both sides and
can be chained.
-/

namespace Reshape

/-- How two things compare that have each been compared with a third one between them. -/
structure Chains (first second whole : Ordering) : Prop where
  of_eq : first = .eq → whole = second
  of_lt : first = .lt → second.isLE = true → whole = .lt

theorem chains_compare {α : Type} [Ord α] [Std.TransOrd α] (a b c : α) :
    Chains (compare a b) (compare b c) (compare a c) :=
  ⟨Std.TransCmp.congr_left, Std.TransCmp.lt_of_lt_of_isLE⟩

namespace Chains

variable {ab bc ac ab' bc' ac' : Ordering}

theorem isLE (h : Chains ab bc ac) (hab : ab.isLE = true) (hbc : bc.isLE = true) :
    ac.isLE = true := by
  rcases Ordering.isLE_iff_eq_lt_or_eq_eq.mp hab with hLt | hEq
  · rw [h.of_lt hLt hbc]
    rfl
  · rwa [h.of_eq hEq]

/-- One criterion after the other: the second one settles what ties by the first. -/
theorem andThen (h : Chains ab bc ac) (h' : Chains ab' bc' ac') :
    Chains (ab.then ab') (bc.then bc') (ac.then ac') := by
  constructor
  · intro hEq
    obtain ⟨hab, hab'⟩ := Ordering.then_eq_eq.mp hEq
    rw [h.of_eq hab, h'.of_eq hab']
  · intro hLt hLE
    rcases Ordering.then_eq_lt.mp hLt with hab | ⟨hab, hab'⟩
    · rw [h.of_lt hab (Ordering.isLE_then_iff_and.mp hLE).1]
      rfl
    · rw [h.of_eq hab]
      rcases Ordering.isLE_then_iff_or.mp hLE with hbc | ⟨hbc, hbc'⟩
      · rw [hbc]
        rfl
      · rw [hbc, h'.of_lt hab' hbc']
        rfl

end Chains

namespace Value

def numberKey : Value → Int
  | number n => n.toBinary64.orderKey
  | _ => 0

def stringKey : Value → String
  | string s => s
  | _ => ""

def itemsKey : Value → List Value
  | array items => items
  | _ => []

/-- The criteria one after the other. One that is not for values of their rank finds a tie. -/
theorem order_eq_then (v w : Value) :
    order v w = (compare v.rank w.rank).then ((compare v.numberKey w.numberKey).then
      ((compare v.stringKey w.stringKey).then (orderItems v.itemsKey w.itemsKey))) := by
  rcases v with _ | (_ | _) | _ | _ | _ | _ <;> rcases w with _ | (_ | _) | _ | _ | _ | _ <;>
    simp [order, rank, numberKey, stringKey, itemsKey, orderItems] <;> rfl

mutual

theorem order_swap (v w : Value) : order v w = (order w v).swap := by
  rw [order_eq_then v w, order_eq_then w v]
  simp only [Ordering.swap_then, ← Std.OrientedOrd.eq_swap]
  congr 3
  cases v with
  | array items => exact orderItems_swap items w.itemsKey
  | _ => cases w.itemsKey <;> rfl

theorem orderItems_swap (items others : List Value) :
    orderItems items others = (orderItems others items).swap := by
  cases items with
  | nil => cases others <;> rfl
  | cons v rest =>
    cases others with
    | nil => rfl
    | cons w others =>
      rw [orderItems, orderItems, Ordering.swap_then, ← order_swap v w,
        ← orderItems_swap rest others]

end

theorem chains_orderItems_nil (items others : List Value) :
    Chains (orderItems [] items) (orderItems items others) (orderItems [] others) := by
  cases items <;> cases others <;> constructor <;> simp [orderItems]

mutual

theorem chains_order (u v w : Value) : Chains (order u v) (order v w) (order u w) := by
  rw [order_eq_then u v, order_eq_then v w, order_eq_then u w]
  refine (chains_compare _ _ _).andThen ?_
  refine (chains_compare _ _ _).andThen ?_
  refine (chains_compare _ _ _).andThen ?_
  cases u with
  | array items => exact chains_orderItems items v.itemsKey w.itemsKey
  | _ => exact chains_orderItems_nil v.itemsKey w.itemsKey

theorem chains_orderItems (items others more : List Value) :
    Chains (orderItems items others) (orderItems others more) (orderItems items more) := by
  cases items with
  | nil => exact chains_orderItems_nil others more
  | cons u items =>
    cases others with
    | nil => constructor <;> simp [orderItems]
    | cons v others =>
      cases more with
      | nil => constructor <;> simp [orderItems]
      | cons w more => exact (chains_order u v w).andThen (chains_orderItems items others more)

end

instance : Std.TransCmp order where
  eq_swap := order_swap _ _
  isLE_trans := (chains_order _ _ _).isLE

theorem le_iff_ne_gt {v w : Value} : le v w = true ↔ order v w ≠ .gt := Ordering.isLE_iff_ne_gt

theorem transitive_le (u v w : Value) (h : le u v = true) (h' : le v w = true) : le u w = true :=
  Std.TransCmp.isLE_trans h h'

theorem total_le (v w : Value) : le v w = true ∨ le w v = true := by
  rw [le, le, order_swap w v]
  cases order v w <;> simp

/-- Whatever the values are: each ties with itself, both sides see the same, and it is transitive. -/
theorem order_isTotalPreorder :
    (∀ v : Value, order v v = .eq) ∧ (∀ v w : Value, order v w = (order w v).swap) ∧
      ∀ u v w : Value, order u v ≠ .gt → order v w ≠ .gt → order u w ≠ .gt := by
  refine ⟨fun v => Std.ReflCmp.compare_self, order_swap, fun u v w h h' => ?_⟩
  exact le_iff_ne_gt.mp (transitive_le u v w (le_iff_ne_gt.mpr h) (le_iff_ne_gt.mpr h'))

/-- Two forms of one number, items of different ranks, objects that tie, and a longer array. -/
theorem order_isTotalPreorder_nested :
    let u := array [number (.integer 1), array [null, string "b"]]
    let v := array [number (.double (.ofInt 1)), array [object [], string "a"], bool true]
    let w := array [number (.integer 1), array [object [("k", null)], string "a"], bool true, null]
    order u v ≠ .gt ∧ order v w ≠ .gt ∧ order u w ≠ .gt := by
  intro u v w
  have h : order u v ≠ .gt := by decide +kernel
  have h' : order v w ≠ .gt := by decide +kernel
  exact ⟨h, h', order_isTotalPreorder.2.2 u v w h h'⟩

end Value

end Reshape
