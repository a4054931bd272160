import Mathlib.Data.List.Pairwise
import Reshape.Proofs.Binary64.Integer
import Reshape.Proofs.StableSort
import Reshape.Proofs.Value.Dedup
import Reshape.Proofs.Value.Order
import Reshape.Value.Arrangement

/-!
# Arrays of integers

Equality and order see an integer only through its 53 significant bits. Removing repeated values and
sorting are exact for the integers that these tell apart, and for no others.
-/

namespace Reshape.Value

open Binary64 (rounded)

def integer (n : Int) : Value := number (.integer n)

def integers (ns : List Int) : List Value := ns.map integer

theorem natAbs_lt_of_wellFormed {n : Int} (h : (integer n).WellFormed) : n.natAbs < 2 ^ 64 := by
  obtain ⟨hLow, hHigh⟩ : -2 ^ 63 ≤ n ∧ n < 2 ^ 64 := h
  omega

theorem equal_integer_iff {m n : Int} (hm : (integer m).WellFormed) (hn : (integer n).WellFormed) :
    (integer m).equal (integer n) = true ↔ rounded m = rounded n :=
  Binary64.equal_ofInt_iff (natAbs_lt_of_wellFormed hm) (natAbs_lt_of_wellFormed hn)

/-! ## Removing repeated values -/

/-- Integers that differ do so in their significant bits. -/
def Separate (ns : List Int) : Prop := ∀ m ∈ ns, ∀ n ∈ ns, rounded m = rounded n → m = n

theorem separate_of_natAbs_le {ns : List Int} (h : ∀ n ∈ ns, n.natAbs ≤ 2 ^ 53) :
    Separate ns := by
  intro m hm n hn hRounded
  rwa [Binary64.rounded_of_natAbs_le (h m hm), Binary64.rounded_of_natAbs_le (h n hn)] at hRounded

theorem any_integers_iff {seen : List Int} {n : Int}
    (h : ∀ m ∈ seen, (integer m).equal (integer n) = true ↔ m = n) :
    (integers seen).any (equal · (integer n)) = true ↔ n ∈ seen := by
  rw [List.any_eq_true]
  constructor
  · rintro ⟨_, hMember, hEqual⟩
    obtain ⟨m, hm, rfl⟩ := List.mem_map.mp hMember
    rwa [← (h m hm).mp hEqual]
  · intro hn
    exact ⟨integer n, List.mem_map_of_mem hn, (h n hn).mpr rfl⟩

theorem dedupAfter_integers {seen ns : List Int}
    (h : ∀ m ∈ seen ++ ns, ∀ n ∈ ns, (integer m).equal (integer n) = true ↔ m = n) :
    dedupAfter (integers seen) (integers ns) =
      integers (ns.filter fun n => n ∉ seen).eraseDups := by
  induction ns generalizing seen with
  | nil => simp [integers, dedupAfter]
  | cons n rest ih =>
    have hAny : (integers seen).any (equal · (integer n)) = true ↔ n ∈ seen :=
      any_integers_iff fun m hm => h m (List.mem_append_left _ hm) n List.mem_cons_self
    change dedupAfter (integers seen) (integer n :: integers rest) = _
    by_cases hSeen : n ∈ seen
    · rw [dedupAfter, if_pos (hAny.mpr hSeen), List.filter_cons_of_neg (by simpa using hSeen)]
      refine ih fun m hm k hk => h m ?_ k (List.mem_cons_of_mem n hk)
      simp only [List.mem_append, List.mem_cons] at hm ⊢
      exact hm.imp_right Or.inr
    · have hLater : integers seen ++ [integer n] = integers (seen ++ [n]) := by simp [integers]
      rw [dedupAfter, if_neg (hAny.not.mpr hSeen), List.filter_cons_of_pos (by simpa using hSeen),
        List.eraseDups_cons, hLater, ih fun m hm k hk => h m ?_ k (List.mem_cons_of_mem n hk)]
      · rw [List.filter_filter, integers, integers, List.map_cons]
        congr 4
        ext k
        simp [beq_eq_decide, Bool.and_comm]
      · simpa using hm

/--
Integers are told apart exactly as far as their significant bits go. So equality is that of
integers, and one copy of each integer is kept, in the order in which they first come, exactly if no
two that differ agree in those; up to `2 ^ 53` none do.
-/
theorem dedup_integers_iff {ns : List Int} (h : ∀ n ∈ ns, (integer n).WellFormed) :
    (∀ m ∈ ns, ∀ n ∈ ns, (integer m).equal (integer n) = true ↔ rounded m = rounded n) ∧
    ((∀ m ∈ ns, ∀ n ∈ ns, (integer m).equal (integer n) = true ↔ m = n) ↔ Separate ns) ∧
    (dedup (integers ns) = integers ns.eraseDups ↔ Separate ns) ∧
    ((∀ n ∈ ns, n.natAbs ≤ 2 ^ 53) → Separate ns) := by
  have hEqual : ∀ m ∈ ns, ∀ n ∈ ns,
      (integer m).equal (integer n) = true ↔ rounded m = rounded n :=
    fun m hm n hn => equal_integer_iff (h m hm) (h n hn)
  have hExact (hSeparate : Separate ns) : ∀ m ∈ ns, ∀ n ∈ ns,
      (integer m).equal (integer n) = true ↔ m = n := by
    intro m hm n hn
    rw [hEqual m hm n hn]
    exact ⟨hSeparate m hm n hn, congrArg rounded⟩
  refine ⟨hEqual, ⟨fun hEq m hm n hn hRounded => ?_, hExact⟩,
    ⟨fun hDedup => ?_, fun hSeparate => ?_⟩, separate_of_natAbs_le⟩
  · exact (hEq m hm n hn).mp ((hEqual m hm n hn).mpr hRounded)
  · -- Both of two integers that are told apart stay, and no two values that stay are equal.
    intro m hm n hn hRounded
    have hPairwise := pairwise_dedupAfter [] (integers ns)
    change (dedup (integers ns)).Pairwise _ at hPairwise
    rw [hDedup, integers, List.pairwise_map] at hPairwise
    by_contra hDiffer
    have hSymm : Std.Symm fun m n => (integer m).equal (integer n) = false :=
      ⟨fun m n => Eq.trans (Binary64.equal_comm _ _)⟩
    have hFalse := hPairwise.forall (List.mem_eraseDups.mpr hm) (List.mem_eraseDups.mpr hn) hDiffer
    rw [(hEqual m hm n hn).mpr hRounded] at hFalse
    cases hFalse
  · have hKept : dedupAfter (integers []) (integers ns) =
        integers (ns.filter fun n => n ∉ []).eraseDups := dedupAfter_integers (hExact hSeparate)
    simpa [dedup, integers] using hKept

/-- The ends of the range, and neighbours of `2 ^ 53` that are even. -/
theorem dedup_integers_iff_ends :
    let ns : List Int :=
      [18446744073709551615, 9007199254740994, 3, -9223372036854775808, 9007199254740992, 3]
    (∀ n ∈ ns, (integer n).WellFormed) ∧ Separate ns ∧
      dedup (integers ns) = integers
        [18446744073709551615, 9007199254740994, 3, -9223372036854775808, 9007199254740992] := by
  intro ns
  have hWellFormed : ∀ n ∈ ns, (integer n).WellFormed := by
    simp [ns, integer]
  have hSeparate : Separate ns := by
    unfold Separate
    decide +kernel
  exact ⟨hWellFormed, hSeparate, (dedup_integers_iff hWellFormed).2.2.1.mpr hSeparate⟩

/-- The second integer rounds to the first one, and is lost. -/
theorem dedup_adjacent_integers :
    let m : Int := 9007199254740992
    let n : Int := 9007199254740993
    (integer m).WellFormed ∧ (integer n).WellFormed ∧ (integer m).equal (integer n) = true ∧
      m ≠ n ∧ dedup (integers [m, n]) = integers [m] := by
  intro m n
  have hEqual : (integer m).equal (integer n) = true := by decide +kernel
  refine ⟨?_, ?_, hEqual, by decide, ?_⟩
  · simp [m, integer]
  · simp [n, integer]
  · simp [dedup, integers, dedupAfter, hEqual]

/-! ## Sorting -/

/-- Of two integers that agree in their significant bits, the smaller one comes first. -/
def TiesAscend (ns : List Int) : Prop := ns.Pairwise fun m n => rounded m = rounded n → m ≤ n

def integerLe (m n : Int) : Bool := le (integer m) (integer n)

theorem integerLe_iff_orderKey {m n : Int} : integerLe m n = true ↔
    (Binary64.ofInt m).orderKey ≤ (Binary64.ofInt n).orderKey := by
  rw [integerLe, le, integer, integer, order, Int.isLE_compare]
  rfl

theorem integerLe_iff {m n : Int} (hm : (integer m).WellFormed) (hn : (integer n).WellFormed) :
    integerLe m n = true ↔ rounded m ≤ rounded n := by
  rw [integerLe_iff_orderKey]
  exact Binary64.orderKey_ofInt_le_iff (natAbs_lt_of_wellFormed hm) (natAbs_lt_of_wellFormed hn)

theorem integerLe_trans (k m n : Int) (hk : integerLe k m = true) (hm : integerLe m n = true) :
    integerLe k n = true :=
  transitive_le _ _ _ hk hm

theorem integerLe_total (m n : Int) : integerLe m n = true ∨ integerLe n m = true := total_le _ _

theorem sort_integers (ns : List Int) :
    sort (integers ns) = integers (stableSort integerLe ns) :=
  stableSort_map fun _ _ => rfl

/-- Pairs of an integer and an item in the order of the integers. -/
def byInteger (a b : Int × Value) : Bool := integerLe a.1 b.1

theorem sortByKeys_integers (ns : List Int) (items : List Value) :
    sortByKeys (integers ns) items = (stableSort byInteger (ns.zip items)).map (·.2) := by
  have hSort : stableSort (fun a b => le a.1 b.1) ((ns.zip items).map (Prod.map integer id)) =
      (stableSort byInteger (ns.zip items)).map (Prod.map integer id) :=
    stableSort_map fun _ _ => rfl
  rw [sortByKeys, integers, List.zip_map_left, hSort, List.map_map]
  rfl

theorem pairwise_stableSort_integers_iff {ns : List Int} (h : ∀ n ∈ ns, (integer n).WellFormed) :
    (stableSort integerLe ns).Pairwise (· ≤ ·) ↔ TiesAscend ns := by
  constructor
  · intro hSorted
    refine List.pairwise_iff_forall_sublist.mpr fun {m n} hPair hRounded => ?_
    have hm := h m (hPair.subset (by simp))
    have hn := h n (hPair.subset (by simp))
    have hLe : integerLe m n = true := (integerLe_iff hm hn).mpr (Int.le_of_eq hRounded)
    exact List.pairwise_iff_forall_sublist.mp hSorted (pair_sublist_stableSort hLe hPair)
  · intro hTies
    apply pairwise_stableSort_of_decides integerLe_trans integerLe_total
    refine hTies.imp_of_mem fun {m n} hm hn hTie => ⟨fun hLe => ?_, fun hNot => ?_⟩
    · rw [integerLe_iff (h m hm) (h n hn)] at hLe
      by_contra hGreater
      have hReverse : rounded n ≤ rounded m := Binary64.rounded_mono (by omega)
      exact hGreater (hTie (Int.le_antisymm hLe hReverse))
    · by_contra hLess
      have hLe := (integerLe_iff (h m hm) (h n hn)).mpr (Binary64.rounded_mono (by omega))
      rw [hNot] at hLe
      cases hLe

/--
Sorting goes by significant bits and leaves integers that agree in them as they come. So the result
ascends exactly if those do already; the keys of a sort by keys are arranged alike.
-/
theorem sort_integers_iff {ns : List Int} (h : ∀ n ∈ ns, (integer n).WellFormed) :
    ∃ ms : List Int, sort (integers ns) = integers ms ∧ ms.Perm ns ∧
      (ms.Pairwise fun m n => rounded m ≤ rounded n) ∧
      (ms.Pairwise (· ≤ ·) ↔ TiesAscend ns) ∧
      ((∀ n ∈ ns, n.natAbs ≤ 2 ^ 53) → TiesAscend ns) ∧
      ∀ items : List Value, items.length = ns.length →
        ∃ pairs : List (Int × Value), pairs.Perm (ns.zip items) ∧ pairs.map (·.1) = ms ∧
          sortByKeys (integers ns) items = pairs.map (·.2) := by
  have hPerm : (stableSort integerLe ns).Perm ns := stableSort_perm integerLe ns
  refine ⟨stableSort integerLe ns, sort_integers ns, hPerm, ?_,
    pairwise_stableSort_integers_iff h, fun hSmall => ?_, fun items hLength => ?_⟩
  · refine (pairwise_stableSort integerLe_trans integerLe_total ns).imp_of_mem ?_
    intro m n hm hn hLe
    exact (integerLe_iff (h m (hPerm.mem_iff.mp hm)) (h n (hPerm.mem_iff.mp hn))).mp hLe
  · have hSeparate := separate_of_natAbs_le hSmall
    exact List.pairwise_of_forall_mem_list fun m hm n hn hRounded =>
      Int.le_of_eq (hSeparate m hm n hn hRounded)
  · refine ⟨_, stableSort_perm _ (ns.zip items), ?_, sortByKeys_integers ns items⟩
    have hIntegers : ∀ a b : Int × Value, byInteger a b = integerLe a.1 b.1 := fun _ _ => rfl
    rw [← stableSort_map hIntegers, List.map_fst_zip (Nat.le_of_eq hLength.symm)]

/-- The second and the third integer tie, but come in their order. -/
theorem sort_integers_iff_tie :
    let ns : List Int := [18446744073709551615, 9007199254740992, 9007199254740993, -1]
    (∀ n ∈ ns, (integer n).WellFormed) ∧ TiesAscend ns ∧
      ∃ ms : List Int, sort (integers ns) = integers ms ∧ ms.Pairwise (· ≤ ·) := by
  intro ns
  have hWellFormed : ∀ n ∈ ns, (integer n).WellFormed := by
    simp [ns, integer]
  have hTies : TiesAscend ns := by
    unfold TiesAscend
    decide +kernel
  obtain ⟨ms, hSort, _, _, hAscending, _⟩ := sort_integers_iff hWellFormed
  exact ⟨hWellFormed, hTies, ms, hSort, hAscending.mpr hTies⟩

/-- The first integer is the larger one, and stays first; so do its item and the other. -/
theorem sort_adjacent_integers :
    let ns : List Int := [9007199254740993, 9007199254740992]
    let items := [string "a", string "b"]
    (∀ n ∈ ns, (integer n).WellFormed) ∧ sort (integers ns) = integers ns ∧
      ¬ ns.Pairwise (· ≤ ·) ∧ sortByKeys (integers ns) items = items := by
  intro ns items
  have hLe : integerLe 9007199254740993 9007199254740992 = true := by decide +kernel
  refine ⟨?_, ?_, by decide, ?_⟩
  · simp [ns, integer]
  · rw [sort_integers]
    simp [ns, stableSort, insertSorted, hLe]
  · rw [sortByKeys_integers]
    simp [ns, items, stableSort, insertSorted, byInteger, hLe]

end Reshape.Value
