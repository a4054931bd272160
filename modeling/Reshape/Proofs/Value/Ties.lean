import Reshape.Proofs.Evaluation.Sorting
import Reshape.Proofs.Value.NumberForm

/-!
# Equal values in the order

Equality takes zero and negative zero for the same number, and the order puts negative zero first.
Nothing else tells equal values apart in the order, so a sort leaves equal values as they come
unless one of them has a negative zero where the other one has a zero.
-/

namespace Reshape

namespace Binary64

theorem eq_of_isZero {x : Binary64} (h : x.isZero = true) : x = zero ∨ x = zero.neg := by
  obtain ⟨negative, magnitude⟩ := x
  obtain rfl : magnitude = 0 := beq_iff_eq.mp h
  cases negative with
  | false => exact .inl rfl
  | true => exact .inr rfl

theorem eq_or_zeros_of_equal {x y : Binary64} (h : x.equal y = true) :
    x = y ∨ x = zero ∧ y = zero.neg ∨ x = zero.neg ∧ y = zero := by
  obtain ⟨_, _, hSame | ⟨hx, hy⟩⟩ := equal_iff.mp h
  · exact .inl hSame
  · rcases eq_of_isZero hx with rfl | rfl <;> rcases eq_of_isZero hy with rfl | rfl
    · exact .inl rfl
    · exact .inr (.inl ⟨rfl, rfl⟩)
    · exact .inr (.inr ⟨rfl, rfl⟩)
    · exact .inl rfl

end Binary64

namespace Number

def IsNegativeZero (n : Number) : Prop := n.toBinary64 = Binary64.zero.neg

variable {m n : Number}

theorem order_eq_iff (h : m.SameValue n) :
    Value.order (.number m) (.number n) = .eq ↔ (m.IsNegativeZero ↔ n.IsNegativeZero) := by
  rw [Value.order, IsNegativeZero, IsNegativeZero]
  rcases Binary64.eq_or_zeros_of_equal h with hSame | ⟨hm, hn⟩ | ⟨hm, hn⟩
  · rw [hSame]
    exact iff_of_true Std.ReflCmp.compare_self Iff.rfl
  · rw [hm, hn]
    decide
  · rw [hm, hn]
    decide

theorem order_lt_iff (h : m.SameValue n) :
    Value.order (.number m) (.number n) = .lt ↔ m.IsNegativeZero ∧ ¬ n.IsNegativeZero := by
  rw [Value.order, IsNegativeZero, IsNegativeZero]
  rcases Binary64.eq_or_zeros_of_equal h with hSame | ⟨hm, hn⟩ | ⟨hm, hn⟩
  · have hTie : compare n.toBinary64.orderKey n.toBinary64.orderKey = .eq :=
      Std.ReflCmp.compare_self
    rw [hSame, hTie]
    simp
  · rw [hm, hn]
    decide
  · rw [hm, hn]
    decide

end Number

namespace Value

/--
At no place, at the top of the values or inside of arrays, only one of them has a negative zero.
What objects hold does not matter.
-/
def ZerosAgree (v w : Value) : Prop :=
  ∀ (places : List Nat) (m n : Number), v.part? (places.map .item) = some (number m) →
    w.part? (places.map .item) = some (number n) → (m.IsNegativeZero ↔ n.IsNegativeZero)

@[simp]
theorem zerosAgree_number_iff {m n : Number} :
    ZerosAgree (number m) (number n) ↔ (m.IsNegativeZero ↔ n.IsNegativeZero) := by
  constructor
  · intro h
    exact h [] m n rfl rfl
  · intro h places m' n' hm hn
    cases places with
    | nil =>
      cases hm
      cases hn
      exact h
    | cons i places => cases hm

theorem zerosAgree_array_iff {items others : List Value} :
    ZerosAgree (array items) (array others) ↔
      ∀ (i : Nat) (v w : Value), items[i]? = some v → others[i]? = some w → ZerosAgree v w := by
  constructor
  · intro h i v w hv hw places m n hm hn
    apply h (i :: places) m n
    · exact part?_item_eq_some_iff.mpr ⟨v, hv, hm⟩
    · exact part?_item_eq_some_iff.mpr ⟨w, hw, hn⟩
  · intro h places m n hm hn
    cases places with
    | nil => cases hm
    | cons i places =>
      obtain ⟨v, hv, hm⟩ := part?_item_eq_some_iff.mp hm
      obtain ⟨w, hw, hn⟩ := part?_item_eq_some_iff.mp hn
      exact h i v w hv hw places m n hm hn

theorem zerosAgree_object (fields : List (String × Value)) (w : Value) :
    ZerosAgree (object fields) w := by
  intro places m n hm hn
  cases places with
  | nil => cases hm
  | cons i places =>
    obtain ⟨_, _, hStep, _⟩ := exists_field_of_part? hm
    cases hStep

theorem zerosAgree_refl (v : Value) : ZerosAgree v v := by
  intro places m n hm hn
  obtain rfl : m = n := Value.number.inj (Option.some.inj (hm.symm.trans hn))
  exact Iff.rfl

theorem order_array_eq_iff {items others : List Value} (hLength : items.length = others.length) :
    order (array items) (array others) = .eq ↔
      ∀ (i : Nat) (v w : Value), items[i]? = some v → others[i]? = some w → order v w = .eq := by
  rw [order]
  induction items generalizing others with
  | nil =>
    cases others with
    | nil => simp [orderItems]
    | cons w others => cases hLength
  | cons v rest ih =>
    cases others with
    | nil => cases hLength
    | cons w others =>
      rw [orderItems, Ordering.then_eq_eq, ih (Nat.succ.inj hLength)]
      constructor
      · rintro ⟨hFirst, hRest⟩ i v' w' hv hw
        cases i with
        | zero =>
          cases hv
          cases hw
          exact hFirst
        | succ i => exact hRest i v' w' hv hw
      · intro h
        exact ⟨h 0 v w rfl rfl, fun i => h (i + 1)⟩

theorem order_eq_iff_of_same {v w : Value} (h : same v w = true) :
    order v w = .eq ↔ ZerosAgree v w := by
  induction v using induction generalizing w with
  | null =>
    cases w with
    | null => exact iff_of_true rfl (zerosAgree_refl null)
    | _ => cases h
  | bool b =>
    cases w with
    | bool c =>
      obtain rfl : b = c := beq_iff_eq.mp h
      exact iff_of_true Std.ReflCmp.compare_self (zerosAgree_refl _)
    | _ => cases h
  | number m =>
    cases w with
    | number n =>
      rw [zerosAgree_number_iff]
      exact Number.order_eq_iff (Number.same_iff.mp h).1
    | _ => cases h
  | string s =>
    cases w with
    | string t =>
      obtain rfl : s = t := beq_iff_eq.mp h
      exact iff_of_true Std.ReflCmp.compare_self (zerosAgree_refl _)
    | _ => cases h
  | array items ih =>
    cases w with
    | array others =>
      obtain ⟨hLength, hItems⟩ := same_array_iff.mp h
      rw [order_array_eq_iff hLength, zerosAgree_array_iff]
      constructor
      · intro hOrder i v w hv hw
        exact (ih v (List.mem_of_getElem? hv) (hItems i v w hv hw)).mp (hOrder i v w hv hw)
      · intro hZeros i v w hv hw
        exact (ih v (List.mem_of_getElem? hv) (hItems i v w hv hw)).mpr (hZeros i v w hv hw)
    | _ => cases h
  | object fields ih =>
    cases w with
    | object others => exact iff_of_true rfl (zerosAgree_object fields _)
    | _ => cases h

theorem order_eq_iff_of_equal {v w : Value} (h : equal v w = true) :
    order v w = .eq ↔ ZerosAgree v w := by
  rcases equal_iff.mp h with hSame | ⟨m, n, rfl, rfl, hValue⟩
  · exact order_eq_iff_of_same hSame
  · rw [zerosAgree_number_iff]
    exact Number.order_eq_iff hValue

/-! ## Sorting -/

/-- A rearrangement of items. Two of them stay in order if their keys are equal, zeros too. -/
def KeepsEqual (key : Value → Value) (items sorted : List Value) : Prop :=
  ∃ places : List (Fin items.length), places.Perm (List.finRange items.length) ∧
    sorted = places.map items.get ∧
    places.Pairwise fun i j => equal (key (items.get i)) (key (items.get j)) = true →
      ZerosAgree (key (items.get i)) (key (items.get j)) → i < j

theorem keepsEqual_sortByKeys (key : Value → Value) (items : List Value) :
    KeepsEqual key items (sortByKeys (items.map key) items) := by
  obtain ⟨places, hPerm, hSort, hPairwise⟩ := exists_places_sortByKeys key items
  refine ⟨places, hPerm, hSort, hPairwise.imp ?_⟩
  rintro i j ⟨_, hTie⟩ hEqual hZeros
  apply hTie
  exact (order_eq_iff_of_equal hEqual).mpr hZeros

theorem keepsEqual_sort (items : List Value) : KeepsEqual id items (sort items) := by
  have hSort : sort items = sortByKeys (items.map id) items := (sortByKeys_map id items).symm
  rw [hSort]
  exact keepsEqual_sortByKeys id items

/--
Equal values tie exactly if their zeros agree, and the values or keys that do so keep their order in
a sort. Of two equal numbers only a negative zero is less than the other one.
-/
theorem equal_ties_iff_zerosAgree :
    (∀ v w : Value, equal v w = true → (order v w = .eq ↔ ZerosAgree v w)) ∧
    (∀ m n : Number, m.SameValue n →
      (order (number m) (number n) = .lt ↔ m.IsNegativeZero ∧ ¬ n.IsNegativeZero)) ∧
    (∀ (key : Value → Value) (items : List Value),
      KeepsEqual key items (sortByKeys (items.map key) items)) ∧
    ∀ items : List Value, KeepsEqual id items (sort items) := by
  refine ⟨?_, ?_, keepsEqual_sortByKeys, keepsEqual_sort⟩
  · intro v w hEqual
    exact order_eq_iff_of_equal hEqual
  · intro m n hValue
    exact Number.order_lt_iff hValue

/-- Two negative zeros inside of arrays, and a zero and a negative one inside of objects. -/
theorem equal_ties_iff_zerosAgree_nested :
    let zero := number (.double .zero)
    let minus := number (.double Binary64.zero.neg)
    let v := array [array [minus], object [("a", zero)]]
    let w := array [array [minus], object [("a", minus)]]
    equal v w = true ∧ ZerosAgree v w ∧ order v w = .eq ∧
      (Number.double Binary64.zero.neg).SameValue (.integer 0) ∧
      order minus (number (.integer 0)) = .lt := by
  intro zero minus v w
  obtain ⟨hTies, hNumbers, _⟩ := equal_ties_iff_zerosAgree
  have hEqual : equal v w = true := by decide +kernel
  have hZeros : ZerosAgree v w := by
    refine zerosAgree_array_iff.mpr ?_
    rintro (_ | _ | i) v w ⟨⟩ ⟨⟩
    · exact zerosAgree_refl _
    · exact zerosAgree_object _ _
  have hValue : (Number.double Binary64.zero.neg).SameValue (.integer 0) := by
    unfold Number.SameValue
    decide +kernel
  refine ⟨hEqual, hZeros, (hTies v w hEqual).mpr hZeros, hValue, ?_⟩
  exact (hNumbers _ _ hValue).mpr ⟨rfl, by unfold Number.IsNegativeZero; decide +kernel⟩

/-- A zero and a negative zero are equal, but do not tie, so that a sort exchanges them. -/
theorem sort_equal_zeros :
    let zero := number (.double .zero)
    let minus := number (.double Binary64.zero.neg)
    equal zero minus = true ∧ order zero minus = .gt ∧ sort [zero, minus] = [minus, zero] := by
  intro zero minus
  exact ⟨rfl, rfl, rfl⟩

end Value

end Reshape
