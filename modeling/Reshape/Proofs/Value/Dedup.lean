import Mathlib.Data.List.Induction
import Mathlib.Order.Fin.Basic
import Reshape.Proofs.Value.Equality
import Reshape.Value.Arrangement

/-!
# Removing repeated values

A list is gone through from the left, and a value is kept if it equals none of those kept so far.
Since equality is an equivalence, that is to equal none of all the values before it.
-/

namespace Reshape.Value

theorem not_equal_of_mem_dedupAfter {seen items : List Value} {v w : Value} (hv : v ∈ seen)
    (hw : w ∈ dedupAfter seen items) : equal v w = false := by
  induction items generalizing seen with
  | nil => cases hw
  | cons u rest ih =>
    rw [dedupAfter] at hw
    split at hw
    · exact ih hv hw
    · rename_i hNew
      rcases List.mem_cons.mp hw with rfl | hw
      · cases hEqual : equal v w with
        | false => rfl
        | true => exact absurd (List.any_eq_true.mpr ⟨v, hv, hEqual⟩) hNew
      · exact ih (List.mem_append_left _ hv) hw

theorem pairwise_dedupAfter (seen items : List Value) :
    (dedupAfter seen items).Pairwise fun v w => equal v w = false := by
  induction items generalizing seen with
  | nil => exact .nil
  | cons v rest ih =>
    rw [dedupAfter]
    split
    · exact ih seen
    · refine List.pairwise_cons.mpr ⟨fun w hw => ?_, ih (seen ++ [v])⟩
      exact not_equal_of_mem_dedupAfter (List.mem_append_right _ List.mem_cons_self) hw

theorem dedupAfter_of_pairwise {seen items : List Value}
    (h : (seen ++ items).Pairwise fun v w => equal v w = false) :
    dedupAfter seen items = items := by
  induction items generalizing seen with
  | nil => rfl
  | cons v rest ih =>
    have hNew : seen.any (equal · v) = false := by
      rw [List.any_eq_false]
      intro u hu
      simp [(List.pairwise_append.mp h).2.2 u hu v List.mem_cons_self]
    rw [List.append_cons] at h
    rw [dedupAfter, hNew, ih h]
    exact if_neg Bool.false_ne_true

@[simp]
theorem dedup_dedup (items : List Value) : dedup (dedup items) = dedup items :=
  dedupAfter_of_pairwise (pairwise_dedupAfter [] items)

/-! ## One more value -/

theorem dedupAfter_append (seen items more : List Value) :
    dedupAfter seen (items ++ more) =
      dedupAfter seen items ++ dedupAfter (seen ++ dedupAfter seen items) more := by
  induction items generalizing seen with
  | nil => simp [dedupAfter]
  | cons v rest ih =>
    rw [List.cons_append, dedupAfter, dedupAfter]
    split
    · exact ih seen
    · rw [ih]
      simp

theorem dedup_concat (items : List Value) (v : Value) :
    dedup (items ++ [v]) =
      dedup items ++ if (dedup items).any (equal · v) then [] else [v] := by
  rw [dedup, dedupAfter_append]
  rfl

theorem exists_equal_of_mem (seen : List Value) {items : List Value}
    (hItems : ∀ v ∈ items, v.WellFormed) {v : Value} (hv : v ∈ items) :
    ∃ w ∈ seen ++ dedupAfter seen items, equal w v = true := by
  induction items generalizing seen with
  | nil => cases hv
  | cons u rest ih =>
    obtain ⟨hu, hRest⟩ := List.forall_mem_cons.mp hItems
    rw [dedupAfter]
    split
    · rename_i hSeen
      rcases List.mem_cons.mp hv with rfl | hv
      · obtain ⟨w, hw, hEqual⟩ := List.any_eq_true.mp hSeen
        exact ⟨w, List.mem_append_left _ hw, hEqual⟩
      · exact ih seen hRest hv
    · rcases List.mem_cons.mp hv with rfl | hv
      · exact ⟨v, by simp, equal_refl hu⟩
      · simpa using ih (seen ++ [u]) hRest hv

theorem any_dedup {items : List Value} (hItems : ∀ v ∈ items, v.WellFormed) {v : Value}
    (hv : v.WellFormed) : (dedup items).any (equal · v) = items.any (equal · v) := by
  rw [Bool.eq_iff_iff, List.any_eq_true, List.any_eq_true]
  have hSubset := (dedupAfter_sublist [] items).subset
  constructor
  · rintro ⟨w, hw, hEqual⟩
    exact ⟨w, hSubset hw, hEqual⟩
  · rintro ⟨u, hu, hEqual⟩
    obtain ⟨w, hw, hFirst⟩ := exists_equal_of_mem [] hItems hu
    refine ⟨w, hw, ?_⟩
    exact equal_trans (hItems w (hSubset hw)) (hItems u hu) hv hFirst hEqual

/-! ## Places -/

section Places

variable {α : Type} [LinearOrder α] {f : α → Value} {places : List α} {i j : α}

/-- The value at a place equals none at a smaller one. -/
def IsFirst (f : α → Value) (places : List α) (i : α) : Prop :=
  ∀ j ∈ places, j < i → equal (f j) (f i) = false

instance (f : α → Value) (places : List α) (i : α) : Decidable (IsFirst f places i) :=
  inferInstanceAs (Decidable (∀ j ∈ places, j < i → equal (f j) (f i) = false))

theorem isFirst_concat_of_lt (h : j < i) : IsFirst f (places ++ [i]) j ↔ IsFirst f places j := by
  unfold IsFirst
  rw [List.forall_mem_append]
  refine and_iff_left ?_
  intro k hk hLater
  rw [List.mem_singleton.mp hk] at hLater
  exact absurd h (lt_asymm hLater)

theorem isFirst_concat_self (h : ∀ j ∈ places, j < i) :
    IsFirst f (places ++ [i]) i ↔ (places.map f).any (equal · (f i)) = false := by
  unfold IsFirst
  rw [List.any_eq_false, List.forall_mem_map, List.forall_mem_append]
  constructor
  · rintro ⟨hNone, _⟩ j hj
    simp [hNone j hj (h j hj)]
  · intro hNone
    refine ⟨fun j hj _ => Bool.eq_false_iff.mpr (hNone j hj), ?_⟩
    simp

/-- The values at ascending places, without those that some smaller place has. -/
theorem dedup_map (hPlaces : places.Pairwise (· < ·)) (hValues : ∀ i ∈ places, (f i).WellFormed) :
    dedup (places.map f) = (places.filter fun i => IsFirst f places i).map f := by
  induction places using List.reverseRecOn with
  | nil => rfl
  | append_singleton places i ih =>
    obtain ⟨hSorted, _, hLast⟩ := List.pairwise_append.mp hPlaces
    obtain ⟨hBefore, hi⟩ := List.forall_mem_append.mp hValues
    have hLess : ∀ j ∈ places, j < i := fun j hj => hLast j hj i List.mem_cons_self
    have hSame : places.filter (fun j => IsFirst f (places ++ [i]) j) =
        places.filter fun j => IsFirst f places j :=
      List.filter_congr fun j hj => decide_eq_decide.mpr (isFirst_concat_of_lt (hLess j hj))
    have hAny := any_dedup (List.forall_mem_map.mpr hBefore) (hi i List.mem_cons_self)
    rw [List.map_append, List.map_singleton, dedup_concat, hAny, ih hSorted hBefore,
      List.filter_append, List.map_append, hSame]
    congr 1
    by_cases hFirst : IsFirst f (places ++ [i]) i
    · rw [(isFirst_concat_self hLess).mp hFirst]
      simp [hFirst]
    · rw [eq_true_of_ne_false ((isFirst_concat_self hLess).not.mp hFirst)]
      simp [hFirst]

/-- Every place has a first one that has an equal value, since equality goes through. -/
theorem exists_isFirst [WellFoundedLT α] (hValues : ∀ i ∈ places, (f i).WellFormed)
    (hi : i ∈ places) :
    ∃ j ∈ places, j ≤ i ∧ IsFirst f places j ∧ equal (f j) (f i) = true := by
  induction i using WellFoundedLT.induction with
  | ind i ih =>
    by_cases hFirst : IsFirst f places i
    · exact ⟨i, hi, le_rfl, hFirst, equal_refl (hValues i hi)⟩
    · simp only [IsFirst, not_forall, Bool.not_eq_false] at hFirst
      obtain ⟨j, hj, hLess, hEqual⟩ := hFirst
      obtain ⟨k, hk, hLe, hFirst, hEqual'⟩ := ih j hLess hj
      refine ⟨k, hk, hLe.trans hLess.le, hFirst, ?_⟩
      exact equal_trans (hValues k hk) (hValues j hj) (hValues i hi) hEqual' hEqual

end Places

/-- The places of a list at which a value stands for the first time. -/
def firstPlaces (items : List Value) : List (Fin items.length) :=
  let places := List.finRange items.length
  places.filter fun i => IsFirst items.get places i

theorem mem_firstPlaces {items : List Value} {i : Fin items.length} :
    i ∈ firstPlaces items ↔ ∀ j < i, equal (items.get j) (items.get i) = false := by
  simp [firstPlaces, IsFirst]

section Firsts

variable {items : List Value} (h : (array items).WellFormed)

include h

theorem wellFormed_item (i : Fin items.length) : (items.get i).WellFormed :=
  wellFormed_array.mp h _ (List.get_mem items i)

theorem dedup_eq_map_firstPlaces :
    dedup items = (firstPlaces items).map items.get := by
  have hDedup := dedup_map (List.pairwise_lt_finRange items.length) fun i _ => wellFormed_item h i
  have hItems : (List.finRange items.length).map items.get = items :=
    List.map_getElem_finRange items
  rwa [hItems] at hDedup

theorem exists_firstPlace (i : Fin items.length) :
    ∃ j ∈ firstPlaces items, j ≤ i ∧ equal (items.get j) (items.get i) = true := by
  obtain ⟨j, hj, hLe, hFirst, hEqual⟩ :=
    exists_isFirst (fun i _ => wellFormed_item h i) (List.mem_finRange i)
  exact ⟨j, List.mem_filter.mpr ⟨hj, decide_eq_true hFirst⟩, hLe, hEqual⟩

theorem eq_of_equal_firstPlaces {i j : Fin items.length} (hi : i ∈ firstPlaces items)
    (hj : j ∈ firstPlaces items) (hEqual : equal (items.get i) (items.get j) = true) : i = j := by
  rcases lt_trichotomy i j with hLess | hSame | hLess
  · rw [mem_firstPlaces.mp hj i hLess] at hEqual
    cases hEqual
  · exact hSame
  · have hEqual' := equal_symm (wellFormed_item h i) (wellFormed_item h j) hEqual
    rw [mem_firstPlaces.mp hi j hLess] at hEqual'
    cases hEqual'

/--
What is kept are the values at some places, in order: those that equal none before them. No two of
them are equal, each value equals one that is kept and not behind it, and doing it again changes
nothing.
-/
theorem dedup_eq_firsts :
    ∃ places : List (Fin items.length), dedup items = places.map items.get ∧
      places.Pairwise (· < ·) ∧ (dedup items).Sublist items ∧
      (∀ i, i ∈ places ↔ ∀ j < i, equal (items.get j) (items.get i) = false) ∧
      (∀ i, ∃ j ∈ places, j ≤ i ∧ equal (items.get j) (items.get i) = true) ∧
      (∀ i ∈ places, ∀ j ∈ places, equal (items.get i) (items.get j) = true → i = j) ∧
      dedup (dedup items) = dedup items := by
  refine ⟨firstPlaces items, dedup_eq_map_firstPlaces h, ?_, dedupAfter_sublist [] items,
    fun i => mem_firstPlaces, exists_firstPlace h, ?_, dedup_dedup items⟩
  · exact (List.pairwise_lt_finRange items.length).filter _
  · intro i hi j hj hEqual
    exact eq_of_equal_firstPlaces h hi hj hEqual

end Firsts

/-- A number in two forms, an object whose fields change places, and arrays of the two forms. -/
theorem dedup_eq_firsts_forms :
    let one := number (.integer 1)
    let double := number (.double (.ofInt 1))
    let items := [one, object [("a", one), ("b", null)], double, object [("b", null), ("a", one)],
      array [one], array [double]]
    (array items).WellFormed ∧
      ∃ places : List (Fin items.length), dedup items = places.map items.get ∧
        places.Pairwise (· < ·) ∧ ∀ i, i ∈ places ↔ i ∈ [0, 1, 4, 5] := by
  intro one double items
  have hWellFormed : (array items).WellFormed := by
    simp [items, one, double, Binary64.isFinite_ofInt]
  obtain ⟨places, hDedup, hSorted, _, hFirsts, _⟩ := dedup_eq_firsts hWellFormed
  refine ⟨hWellFormed, places, hDedup, hSorted, fun i => ?_⟩
  rw [hFirsts]
  revert i
  decide +kernel

end Reshape.Value
