import Reshape.StableSort

/-!
# Operators

The operators of the expression language. Where spellings begin alike the longest one counts, so
that `!sortBy` is not read as `!sort`, nor `[].` as a word before `.`.
-/

namespace Reshape

inductive Operator where
  | field | rootField | arrayMap | search
  | toBool | dedup | not
  | add | equals
  | sort | sortBy | filter | map | json
  | and | or
  deriving DecidableEq

/-- Where an operator stands; `either` is before or after its operand. -/
inductive Fixity where
  | between | before | after | either
  deriving DecidableEq

namespace Operator

def letters : Operator → List Char
  | field => ['.']
  | rootField => ['$', '.']
  | arrayMap => ['[', ']', '.']
  | search => ['*', '.']
  | toBool => ['?']
  | dedup => ['#']
  | not => ['!']
  | add => ['+']
  | equals => ['=']
  | sort => ['!', 's', 'o', 'r', 't']
  | sortBy => ['!', 's', 'o', 'r', 't', 'B', 'y']
  | filter => ['!', 'f', 'i', 'l', 't', 'e', 'r']
  | map => ['!', 'm', 'a', 'p']
  | json => ['!', 'j', 's', 'o', 'n']
  | and => ['&']
  | or => ['|']

def spelling (o : Operator) : String := String.ofList o.letters

/-- A smaller number binds tighter. -/
def precedence : Operator → Nat
  | field => 1
  | rootField => 1
  | arrayMap => 1
  | search => 1
  | toBool => 1
  | dedup => 1
  | not => 2
  | add => 4
  | equals => 5
  | sort => 6
  | sortBy => 6
  | filter => 6
  | map => 6
  | json => 6
  | and => 7
  | or => 8

def fixity : Operator → Fixity
  | field => .between
  | rootField => .before
  | arrayMap => .between
  | search => .between
  | toBool => .after
  | dedup => .after
  | not => .either
  | add => .between
  | equals => .between
  | sort => .after
  | sortBy => .between
  | filter => .between
  | map => .between
  | json => .after
  | and => .between
  | or => .between

def arity (o : Operator) : Nat :=
  match o.fixity with
  | .between => 2
  | _ => 1

def expectsOperand (o : Operator) : Bool :=
  match o.fixity with
  | .between => true
  | .before => true
  | _ => false

def all : List Operator :=
  [field, rootField, arrayMap, search, toBool, dedup, not, add, equals, sort, sortBy, filter, map,
    json, and, or]

def byLength : List Operator :=
  stableSort (fun a b => b.letters.length ≤ a.letters.length) all

def longestAt? (s : List Char) : Option Operator :=
  byLength.find? fun o => o.letters.isPrefixOf s

theorem mem_all (o : Operator) : o ∈ all := by
  cases o <;> decide

@[simp]
theorem letters_ne_nil (o : Operator) : o.letters ≠ [] := by
  cases o <;> decide

theorem eq_of_letters {o other : Operator} (h : o.letters = other.letters) : o = other := by
  have hTable : ∀ a ∈ all, ∀ b ∈ all, a.letters = b.letters → a = b := by decide
  exact hTable o (mem_all o) other (mem_all other) h

theorem mem_byLength (o : Operator) : o ∈ byLength :=
  (stableSort_perm _ all).mem_iff.mpr (mem_all o)

theorem pairwise_byLength :
    byLength.Pairwise fun a b => b.letters.length ≤ a.letters.length := by
  decide

theorem longestAt?_eq_none {s : List Char} :
    longestAt? s = none ↔ ∀ o : Operator, ¬ o.letters <+: s := by
  simp only [longestAt?, List.find?_eq_none, List.isPrefixOf_iff_prefix]
  exact ⟨fun h o => h o (mem_byLength o), fun h o _ => h o⟩

theorem length_le_of_longestAt? {o other : Operator} {s : List Char}
    (h : longestAt? s = some o) (hOther : other.letters <+: s) :
    other.letters.length ≤ o.letters.length := by
  obtain ⟨_, tighter, looser, hTable, hTighter⟩ := List.find?_eq_some_iff_append.mp h
  have hPairwise := pairwise_byLength
  have hMember := mem_byLength other
  rw [hTable] at hPairwise hMember
  rcases List.mem_append.mp hMember with hMember | hMember
  · have hNone := hTighter other hMember
    simp [List.isPrefixOf_iff_prefix.mpr hOther] at hNone
  · rcases List.mem_cons.mp hMember with rfl | hMember
    · exact Nat.le_refl _
    · exact (List.pairwise_cons.mp (List.pairwise_append.mp hPairwise).2.1).1 other hMember

theorem prefix_of_longestAt? {o : Operator} {s : List Char} (h : longestAt? s = some o) :
    o.letters <+: s := by
  rw [longestAt?] at h
  simpa using List.find?_some h

theorem longestAt?_eq_some {o : Operator} {s : List Char} (h : o.letters <+: s)
    (hLongest : ∀ other : Operator, other.letters <+: s →
      other.letters.length ≤ o.letters.length) : longestAt? s = some o := by
  cases hFound : longestAt? s with
  | none => exact absurd h (longestAt?_eq_none.mp hFound o)
  | some found =>
    have hPrefix := prefix_of_longestAt? hFound
    have hLength := Nat.le_antisymm (hLongest found hPrefix) (length_le_of_longestAt? hFound h)
    have hLetters := (List.prefix_of_prefix_length_le hPrefix h (Nat.le_of_eq hLength)).eq_of_length
      hLength
    rw [eq_of_letters hLetters]

theorem letters_append_drop {o : Operator} {c : Char} {rest : List Char}
    (h : o.letters <+: c :: rest) : o.letters ++ rest.drop (o.letters.length - 1) = c :: rest := by
  obtain ⟨rest', hRest⟩ := h
  obtain ⟨first, others, hLetters⟩ := List.exists_cons_of_ne_nil o.letters_ne_nil
  rw [hLetters] at hRest ⊢
  cases hRest
  simp

end Operator

end Reshape
