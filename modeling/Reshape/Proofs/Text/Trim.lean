import Mathlib.Data.List.DropRight
import Reshape.Text.Blank

/-!
# Trimmed texts

Trimming leaves no blank at either end, and a text without blanks there as it is.
-/

namespace Reshape.Text

def Trimmed (s : List Char) : Prop :=
  (∀ c ∈ s.head?, isBlank c = false) ∧ ∀ c ∈ s.getLast?, isBlank c = false

theorem head?_trimStart {s : List Char} {c : Char} (h : (trimStart s).head? = some c) :
    isBlank c = false := by
  have hHead := List.head?_dropWhile_not isBlank s
  rw [trimStart] at h
  rwa [h] at hHead

theorem trimEnd_prefix (s : List Char) : trimEnd s <+: s := List.rdropWhile_prefix isBlank s

theorem trimmed_trim (s : List Char) : Trimmed (trim s) := by
  constructor
  · intro c hc
    obtain ⟨rest, hRest⟩ := trimEnd_prefix (trimStart s)
    apply head?_trimStart (s := s)
    rw [← hRest, List.head?_append]
    exact congrArg (Option.or · _) hc
  · intro c hc
    have hLast := List.head?_dropWhile_not isBlank (trimStart s).reverse
    rw [Option.mem_def, trim, trimEnd, List.getLast?_reverse] at hc
    rwa [hc] at hLast

theorem trimmed_of_forall {s : List Char} (h : ∀ c ∈ s, isBlank c = false) : Trimmed s :=
  ⟨fun c hc => h c (List.mem_of_head? hc), fun c hc => h c (List.mem_of_getLast? hc)⟩

theorem trim_of_trimmed {s : List Char} (h : Trimmed s) : trim s = s := by
  obtain ⟨hHead, hLast⟩ := h
  have hStart : trimStart s = s := by
    cases s with
    | nil => rfl
    | cons c rest => simp [trimStart, hHead c rfl]
  rw [trim, hStart]
  refine List.rdropWhile_eq_self_iff.mpr fun hNonempty => ?_
  simp [hLast _ (List.getLast?_eq_some_getLast hNonempty)]

theorem trim_eq_nil_iff {s : List Char} : trim s = [] ↔ ∀ c ∈ s, isBlank c = true := by
  rw [← List.dropWhile_eq_nil_iff]
  constructor
  · intro h
    have hAll : ∀ c ∈ trimStart s, isBlank c = true := List.rdropWhile_eq_nil_iff.mp h
    cases hStart : trimStart s with
    | nil => exact hStart
    | cons c rest =>
      have hBlank := hAll c (by simp [hStart])
      rw [head?_trimStart (s := s) (by rw [hStart]; rfl)] at hBlank
      cases hBlank
  · intro h
    rw [trim, trimStart, h]
    rfl

theorem exists_eq_append_trim (s : List Char) :
    ∃ lead trail, s = lead ++ (trim s ++ trail) ∧ ∀ c ∈ lead, isBlank c = true := by
  obtain ⟨trail, hTrail⟩ := trimEnd_prefix (trimStart s)
  refine ⟨s.takeWhile isBlank, trail, ?_, fun c => List.mem_takeWhile_imp⟩
  rw [trim, hTrail]
  exact List.takeWhile_append_dropWhile.symm

theorem trim_append_of_blank {s t : List Char} (h : ∀ c ∈ t, isBlank c = true) :
    trim (s ++ t) = trim s := by
  by_cases hStart : trimStart s = []
  · have hAppend : trimStart (s ++ t) = [] := by
      rw [trimStart, List.dropWhile_eq_nil_iff] at hStart ⊢
      exact List.forall_mem_append.mpr ⟨hStart, h⟩
    rw [trim, trim, hStart, hAppend]
  · have hAppend : trimStart (s ++ t) = trimStart s ++ t :=
      List.dropWhile_append.trans (if_neg (List.isEmpty_iff.not.mpr hStart))
    have hReverse : ∀ c ∈ t.reverse, isBlank c = true := fun c hc => h c (List.mem_reverse.mp hc)
    rw [trim, trim, hAppend, trimEnd, trimEnd, List.reverse_append,
      List.dropWhile_append_of_pos hReverse]

theorem trim_append_of_trimmed {s t : List Char} (hs : trim s = []) (ht : Trimmed t) :
    trim (s ++ t) = t := by
  have hStart : trimStart (s ++ t) = trimStart t :=
    List.dropWhile_append_of_pos (trim_eq_nil_iff.mp hs)
  rw [trim, hStart]
  exact trim_of_trimmed ht

end Reshape.Text
