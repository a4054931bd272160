import Mathlib.Data.List.Sort
import Reshape.StableSort

/-!
# What stable sorting keeps

A stable sort is sorted, keeps the order of items that tie, and commutes with a map that keeps the
comparison and with leaving items out. A relation that the comparison decides between any two
items, the earlier one going first where they tie, holds all along the sorted list.
-/

namespace Reshape

variable {le : α → α → Bool}

theorem insertSorted_eq_orderedInsert (x : α) (items : List α) :
    insertSorted le x items = items.orderedInsert (fun a b => le a b = true) x := by
  induction items with
  | nil => rfl
  | cons y rest ih => rw [insertSorted, List.orderedInsert_cons, ih]

theorem stableSort_eq_insertionSort (items : List α) :
    stableSort le items = items.insertionSort fun a b => le a b = true := by
  induction items with
  | nil => rfl
  | cons x rest ih => rw [stableSort, insertSorted_eq_orderedInsert, ih, List.insertionSort_cons]

theorem stableSort_map {le' : β → β → Bool} {f : α → β} {items : List α}
    (h : ∀ a b, le a b = le' (f a) (f b)) :
    stableSort le' (items.map f) = (stableSort le items).map f := by
  rw [stableSort_eq_insertionSort, stableSort_eq_insertionSort]
  refine (List.map_insertionSort _ _ f items fun a _ b _ => ?_).symm
  rw [h]

theorem insertSorted_of_forall_le {x : α} {items : List α} (h : ∀ y ∈ items, le x y = true) :
    insertSorted le x items = x :: items := by
  cases items with
  | nil => rfl
  | cons y rest => exact if_pos (h y List.mem_cons_self)

theorem pair_sublist_stableSort {a b : α} {items : List α} (h : le a b = true)
    (hPair : [a, b].Sublist items) : [a, b].Sublist (stableSort le items) := by
  rw [stableSort_eq_insertionSort]
  exact List.pair_sublist_insertionSort h hPair

/-- The comparison decides a relation: of two items that tie, the first one is taken. -/
def Decides (le : α → α → Bool) (R : α → α → Prop) (a b : α) : Prop :=
  (le a b = true → R a b) ∧ (le a b = false → R b a)

section Total

variable (hTrans : ∀ a b c, le a b = true → le b c = true → le a c = true)
  (hTotal : ∀ a b, le a b = true ∨ le b a = true)

include hTrans

theorem pairwise_insertSorted {R : α → α → Prop} {x : α} {items : List α}
    (hSorted : items.Pairwise fun a b => le a b = true) (hItems : items.Pairwise R)
    (hx : ∀ y ∈ items, Decides le R x y) : (insertSorted le x items).Pairwise R := by
  induction items with
  | nil => exact List.pairwise_singleton R x
  | cons y rest ih =>
    obtain ⟨hLe, hRest⟩ := List.pairwise_cons.mp hSorted
    obtain ⟨hy, hItems'⟩ := List.pairwise_cons.mp hItems
    rw [insertSorted]
    split
    · rename_i hBefore
      refine List.pairwise_cons.mpr ⟨fun z hz => (hx z hz).1 ?_, hItems⟩
      rcases List.mem_cons.mp hz with rfl | hz
      · exact hBefore
      · exact hTrans x y z hBefore (hLe z hz)
    · rename_i hAfter
      refine List.pairwise_cons.mpr ⟨fun z hz => ?_, ih hRest hItems' fun z hz => ?_⟩
      · rcases List.mem_cons.mp ((insertSorted_perm le x rest).mem_iff.mp hz) with rfl | hz
        · exact (hx y List.mem_cons_self).2 (Bool.eq_false_of_not_eq_true hAfter)
        · exact hy z hz
      · exact hx z (List.mem_cons_of_mem y hz)

theorem filter_insertSorted (test : α → Bool) {x : α} {items : List α}
    (hSorted : items.Pairwise fun a b => le a b = true) :
    (insertSorted le x items).filter test =
      if test x then insertSorted le x (items.filter test) else items.filter test := by
  induction items with
  | nil => cases hx : test x <;> simp [insertSorted, hx]
  | cons y rest ih =>
    obtain ⟨hy, hRest⟩ := List.pairwise_cons.mp hSorted
    rw [insertSorted]
    split
    · rename_i hBefore
      have hAll : ∀ z ∈ (y :: rest).filter test, le x z = true := by
        intro z hz
        rcases List.mem_cons.mp (List.mem_of_mem_filter hz) with rfl | hz
        · exact hBefore
        · exact hTrans x y z hBefore (hy z hz)
      rw [insertSorted_of_forall_le hAll, List.filter_cons]
    · rename_i hAfter
      rw [List.filter_cons, List.filter_cons, ih hRest]
      cases test y with
      | false => rfl
      | true =>
        cases test x with
        | false => rfl
        | true => simp [insertSorted, hAfter]

include hTotal

theorem pairwise_stableSort (items : List α) :
    (stableSort le items).Pairwise fun a b => le a b = true := by
  have : Std.Total fun a b => le a b = true := ⟨hTotal⟩
  have : IsTrans α fun a b => le a b = true := ⟨hTrans⟩
  rw [stableSort_eq_insertionSort]
  exact List.pairwise_insertionSort _ items

theorem pairwise_stableSort_of_decides {R : α → α → Prop} {items : List α}
    (h : items.Pairwise (Decides le R)) : (stableSort le items).Pairwise R := by
  induction items with
  | nil => exact .nil
  | cons x rest ih =>
    obtain ⟨hx, hRest⟩ := List.pairwise_cons.mp h
    refine pairwise_insertSorted hTrans (pairwise_stableSort hTrans hTotal rest) (ih hRest) ?_
    exact fun y hy => hx y ((stableSort_perm le rest).mem_iff.mp hy)

/-- Leaving items out of a sorted list gives the sorted list of the others, ties included. -/
theorem filter_stableSort (test : α → Bool) (items : List α) :
    (stableSort le items).filter test = stableSort le (items.filter test) := by
  induction items with
  | nil => rfl
  | cons x rest ih =>
    rw [stableSort, filter_insertSorted hTrans test (pairwise_stableSort hTrans hTotal rest), ih,
      List.filter_cons]
    split <;> rfl

/-- Items that tie stay in every relation in which they come. -/
theorem pairwise_stableSort_ties {R : α → α → Prop} {items : List α} (h : items.Pairwise R) :
    (stableSort le items).Pairwise fun a b => le a b = true ∧ (le b a = true → R a b) := by
  apply pairwise_stableSort_of_decides hTrans hTotal
  refine h.imp fun {a b} hBefore => ⟨fun hLe => ⟨hLe, fun _ => hBefore⟩, fun hNot => ⟨?_, ?_⟩⟩
  · exact (hTotal a b).resolve_left (by simp [hNot])
  · intro hTie
    rw [hNot] at hTie
    cases hTie

/-- A sort rearranges the places of a list, and items that tie keep the order of their places. -/
theorem exists_places_stableSort (items : List α) :
    ∃ places : List (Fin items.length), places.Perm (List.finRange items.length) ∧
      stableSort le items = places.map (fun i => items[i]) ∧
      places.Pairwise fun i j =>
        le items[i] items[j] = true ∧ (le items[j] items[i] = true → i < j) := by
  refine ⟨stableSort (fun i j => le items[i] items[j]) (List.finRange items.length),
    stableSort_perm _ _, ?_, ?_⟩
  · have hItems : (List.finRange items.length).map (fun i => items[i]) = items :=
      List.map_getElem_finRange items
    have hSort : stableSort le ((List.finRange items.length).map fun i => items[i]) =
        (stableSort (fun i j => le items[i] items[j]) (List.finRange items.length)).map
          fun i => items[i] :=
      stableSort_map fun _ _ => rfl
    rwa [hItems] at hSort
  · exact pairwise_stableSort_ties (fun i j k => hTrans items[i] items[j] items[k])
      (fun i j => hTotal items[i] items[j]) (List.pairwise_lt_finRange items.length)

end Total

end Reshape
