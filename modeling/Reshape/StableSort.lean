/-!
# Stable sorting

Insertion from the right: an item goes before the first one that it is not after, so that items
that tie keep their order.
-/

namespace Reshape

/-- Puts `x` before the first item that it is not after. -/
def insertSorted (le : α → α → Bool) (x : α) : List α → List α
  | [] => [x]
  | y :: rest => if le x y then x :: y :: rest else y :: insertSorted le x rest

def stableSort (le : α → α → Bool) : List α → List α
  | [] => []
  | x :: rest => insertSorted le x (stableSort le rest)

theorem insertSorted_perm (le : α → α → Bool) (x : α) (items : List α) :
    (insertSorted le x items).Perm (x :: items) := by
  induction items with
  | nil => exact List.Perm.refl _
  | cons y rest ih =>
    unfold insertSorted
    split
    · exact List.Perm.refl _
    · exact (ih.cons y).trans (List.Perm.swap x y rest)

theorem stableSort_perm (le : α → α → Bool) (items : List α) :
    (stableSort le items).Perm items := by
  induction items with
  | nil => exact List.Perm.refl _
  | cons x rest ih => exact (insertSorted_perm le x _).trans (ih.cons x)

end Reshape
