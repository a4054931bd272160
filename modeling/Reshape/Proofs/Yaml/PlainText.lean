import Reshape.Json.Reader
import Reshape.Text.Blank
import Reshape.Yaml.Text

/-!
# Words and numerals as plain scalars

A word or a numeral is one plain scalar, whatever space comes behind it up to the end of the text.
-/

namespace Reshape.Yaml

/-- Letters, digits, signs and points, which are plain wherever they stand. -/
def isBareChar (c : Char) : Bool := c.isAlphanum || c == '+' || c == '-' || c == '.'

/-- A word or a numeral: a letter or a digit begins it, a minus sign may stand in front. -/
def Bare (s : List Char) : Prop :=
  (∀ c ∈ s, isBareChar c = true) ∧
    ∃ c rest, c.isAlphanum = true ∧ (s = c :: rest ∨ s = '-' :: c :: rest)

theorem Bare.ne_nil {s : List Char} (h : Bare s) : s ≠ [] := by
  obtain ⟨_, c, rest, _, rfl | rfl⟩ := h
  · exact List.cons_ne_nil _ _
  · exact List.cons_ne_nil _ _

theorem toNat_lt_of_isAlphanum {c : Char} (h : c.isAlphanum = true) : c.toNat < 128 := by
  rcases Bool.or_eq_true_iff.mp h with hAlpha | hDigit
  · rcases Bool.or_eq_true_iff.mp hAlpha with hUpper | hLower
    · have hRange : c.val ≥ 'A'.val ∧ c.val ≤ 'Z'.val := of_decide_eq_true hUpper
      exact Nat.lt_of_le_of_lt hRange.2 (by decide)
    · have hHigh : c.val ≤ 'z'.val := of_decide_eq_true (Bool.and_eq_true_iff.mp hLower).2
      exact Nat.lt_of_le_of_lt hHigh (by decide)
  · exact Nat.lt_of_le_of_lt (Char.isDigit_iff_toNat.mp hDigit).2 (by decide)

theorem toNat_lt_of_isBareChar {c : Char} (h : isBareChar c = true) : c.toNat < 128 := by
  simp only [isBareChar, Bool.or_eq_true, beq_iff_eq] at h
  rcases h with ((hAlphanum | rfl) | rfl) | rfl
  · exact toNat_lt_of_isAlphanum hAlphanum
  · decide
  · decide
  · decide

/-- What holds of the bare characters in the table of the first 128 holds of all of them. -/
theorem of_isBareChar (P : Char → Prop)
    (hTable : ∀ n < 128, isBareChar (Char.ofNat n) = true → P (Char.ofNat n)) {c : Char}
    (h : isBareChar c = true) : P c := by
  have hc := hTable c.toNat (toNat_lt_of_isBareChar h)
  rw [Char.ofNat_toNat] at hc
  exact hc h

theorem plain_of_isBareChar {c : Char} (h : isBareChar c = true) :
    isAllowed c = true ∧ isGap c = false ∧ c ≠ ':' :=
  of_isBareChar (fun c => isAllowed c = true ∧ isGap c = false ∧ c ≠ ':') (by decide) h

theorem isBlank_of_isBareChar {c : Char} (h : isBareChar c = true) : Text.isBlank c = false :=
  of_isBareChar (Text.isBlank · = false) (by decide) h

theorem isBareChar_of_isAlphanum {c : Char} (h : c.isAlphanum = true) : isBareChar c = true := by
  rw [isBareChar, h]
  rfl

/-! ## Cursors -/

namespace Cursor

variable {c : Cursor}

@[simp]
theorem test_zero (c : Cursor) (p : Char → Bool) : c.test 0 p = c.rest.head?.any p := by
  rw [test, at?, List.head?_eq_getElem?]

theorem test_of_rest {s : List Char} {p : Char → Bool} (hRest : c.rest = s)
    (h : ∀ d ∈ s.head?, p d = false) : c.test 0 p = false := by
  rw [test_zero, hRest]
  cases s with
  | nil => rfl
  | cons d s => exact h d rfl

theorem test_of_nil (h : c.rest = []) (p : Char → Bool) : c.test 0 p = false :=
  test_of_rest h (by simp)

@[simp]
theorem skipWhile_rest (c : Cursor) (p : Char → Bool) :
    (c.skipWhile p).rest = c.rest.dropWhile p := by
  have hDrop : (c.rest.takeWhile p ++ c.rest.dropWhile p).drop (c.rest.takeWhile p).length =
      c.rest.dropWhile p := List.drop_left
  rwa [List.takeWhile_append_dropWhile] at hDrop

/-- A line feed behind a carriage return belongs to the same break. -/
theorem lineBreak_rest {b : Char} {s : List Char} (h : c.rest = b :: s)
    (hBreak : isBreak b = true) :
    c.lineBreak.2.rest = s ∨ ∃ s', s = '\n' :: s' ∧ c.lineBreak.2.rest = s' := by
  unfold lineBreak
  rw [h]
  split
  · rename_i hPair
    cases hPair
    exact .inr ⟨_, rfl, rfl⟩
  · rename_i hCons
    cases hCons
    rw [if_pos hBreak]
    exact .inl rfl
  · rename_i hNil
    cases hNil

@[simp]
theorem atDocumentMark_of_nil (h : c.rest = []) : c.atDocumentMark = false := by
  simp [atDocumentMark, startsWith, h]

theorem atDocumentMark_of_bare {s rest : List Char} (h : Bare s) (hRest : c.rest = s ++ rest) :
    c.atDocumentMark = false := by
  obtain ⟨_, d, tail, hLetter, rfl | rfl⟩ := h
  · have hDash : d ≠ '-' := by rintro rfl; cases hLetter
    have hPoint : d ≠ '.' := by rintro rfl; cases hLetter
    simp [atDocumentMark, startsWith, hRest, List.isPrefixOf, hDash.symm, hPoint.symm]
  · have hDash : d ≠ '-' := by rintro rfl; cases hLetter
    simp [atDocumentMark, startsWith, hRest, List.isPrefixOf, hDash.symm]

end Cursor

/-! ## Scalars -/

theorem mem_of_isSpace {c : Char} (h : Json.isSpace c = true) :
    c = ' ' ∨ c = '\n' ∨ c = '\t' ∨ c = '\r' := by
  simp only [Json.isSpace, Bool.or_eq_true, beq_iff_eq] at h
  rwa [or_assoc, or_assoc] at h

theorem mem_of_isSpace_of_ne {c : Char} (h : Json.isSpace c = true) (hTab : c ≠ '\t') :
    c = ' ' ∨ c = '\n' ∨ c = '\r' := by
  rcases mem_of_isSpace h with rfl | rfl | rfl | rfl
  · exact .inl rfl
  · exact .inr (.inl rfl)
  · exact absurd rfl hTab
  · exact .inr (.inr rfl)

theorem isGap_of_isSpace {c : Char} (h : Json.isSpace c = true) : isGap c = true := by
  rcases mem_of_isSpace h with rfl | rfl | rfl | rfl <;> rfl

theorem plainRun_of_bare {s rest : List Char} (hBare : ∀ c ∈ s, isBareChar c = true)
    (hRest : ∀ c ∈ rest.head?, isGap c = true) : plainRun false (s ++ rest) = .ok s := by
  induction s with
  | nil =>
    cases rest with
    | nil => rfl
    | cons c rest => exact if_pos (hRest c rfl)
  | cons c s ih =>
    obtain ⟨hc, hs⟩ := List.forall_mem_cons.mp hBare
    obtain ⟨_, hGap, hColon⟩ := plain_of_isBareChar hc
    have hColon : (c == ':') = false := beq_eq_false_iff_ne.mpr hColon
    rw [List.cons_append, plainRun, hGap, hColon, ih hs]
    rfl

/-- Outside of blocks any space ends with the text, tabs among it. -/
theorem gap_read_space {bound : Nat} {g : Gap} {c : Cursor}
    (hSpace : ∀ d ∈ c.rest, Json.isSpace d = true) (hBound : c.rest.length ≤ bound) :
    ∃ g' c', g.read 0 bound c = .ok (g', c') ∧ c'.rest = [] := by
  induction bound generalizing g c with
  | zero => exact ⟨g, c, rfl, List.length_eq_zero_iff.mp (Nat.le_zero.mp hBound)⟩
  | succ bound ih =>
    unfold Gap.read
    cases hRest : c.rest with
    | nil => exact ⟨g, c, rfl, hRest⟩
    | cons b s =>
      rw [hRest] at hSpace hBound
      obtain ⟨hb, hs⟩ := List.forall_mem_cons.mp hSpace
      have hLength : s.length ≤ bound := Nat.le_of_succ_le_succ hBound
      have hColumn : decide ((c.column : Int) < 0) = false := decide_eq_false (by omega)
      simp only [hColumn, Bool.and_false, Bool.false_eq_true, if_false]
      by_cases hBlank : isSpaceOrTab b = true
      · have hSkip : (c.skip 1).rest = s := by rw [Cursor.skip, hRest]; rfl
        rw [← hSkip] at hs hLength
        rw [if_pos hBlank]
        split
        · exact ih hs hLength
        · exact ih hs hLength
      · have hBreak : isBreak b = true := by
          rcases mem_of_isSpace hb with rfl | rfl | rfl | rfl
          · exact absurd rfl hBlank
          · rfl
          · exact absurd rfl hBlank
          · rfl
        rw [if_neg hBlank, if_pos hBreak]
        have hNext : (∀ d ∈ c.lineBreak.2.rest, Json.isSpace d = true) ∧
            c.lineBreak.2.rest.length ≤ bound := by
          obtain hNext | ⟨s', rfl, hNext⟩ := Cursor.lineBreak_rest hRest hBreak
          · rw [hNext]
            exact ⟨hs, hLength⟩
          · rw [hNext]
            exact ⟨(List.forall_mem_cons.mp hs).2, Nat.le_of_succ_le hLength⟩
        split
        · exact ih hNext.1 hNext.2
        · exact ih hNext.1 hNext.2

theorem plainFrom_nil {bound : Nat} {text : List Char} {gap : Gap} {c : Cursor} (h : c.rest = []) :
    plainFrom false 0 (bound + 1) text gap c = .ok ((text, gap.broken), c) := by
  have hSkip : c.skip 0 = c := by simp [Cursor.skip, Text.byteCount]
  have hEnd := Cursor.test_of_nil h
  have hRun : plainRun false c.rest = .ok [] := by
    rw [h]
    rfl
  rw [plainFrom, Cursor.atDocumentMark_of_nil h, hEnd, hRun]
  change (if !Cursor.test (c.skip 0) 0 isGap then
    Except.ok ((text, gap.broken), c.skip 0) else _) = _
  rw [hSkip, hEnd]
  rfl

/-- No column is left of the outermost block, so a scalar goes on behind each gap. -/
theorem plainFrom_run {bound : Nat} {text run : List Char} {gap : Gap} {c : Cursor}
    (hMark : c.atDocumentMark = false) (hHash : c.test 0 (· == '#') = false)
    (hRun : plainRun false c.rest = .ok run) (hNonempty : run ≠ []) :
    plainFrom false 0 (bound + 1) text gap c =
      let next := c.skip run.length
      if next.test 0 isGap then do
        let (gap', c') ← Gap.empty.read 0 next.rest.length next
        plainFrom false 0 bound (text ++ gap.text ++ run) gap' c'
      else .ok ((text ++ gap.text ++ run, false), next) := by
  have hJoined {α : Type} (x y : α) : (if run ≠ [] then x else y) = x := if_pos hNonempty
  have hRest {α : Type} (f : List Char → Except Fault α) : (Except.ok run >>= f) = f run := rfl
  have hColumn (n : Nat) : ¬ (n : Int) < 0 := by omega
  rw [plainFrom, hMark, hHash, hRun, hRest]
  simp only [hJoined]
  cases hTest : (c.skip run.length).test 0 isGap with
  | false => rfl
  | true => simp [hColumn]

theorem plainScalar_bare {s trail : List Char} {c : Cursor} (hBare : Bare s)
    (hTrail : ∀ d ∈ trail, Json.isSpace d = true) (hRest : c.rest = s ++ trail) :
    ∃ broken c', plainScalar false 0 c = .ok ((s, broken), c') ∧ c'.rest = [] := by
  have hGap : ∀ d ∈ trail.head?, isGap d = true := by
    intro d hd
    exact isGap_of_isSpace (hTrail d (List.mem_of_head? hd))
  have hRun : plainRun false c.rest = .ok s := by
    rw [hRest]
    exact plainRun_of_bare hBare.1 hGap
  have hHash : c.test 0 (· == '#') = false := by
    obtain ⟨_, d, tail, hLetter, rfl | rfl⟩ := hBare
    · rw [Cursor.test_zero, hRest]
      apply beq_eq_false_iff_ne.mpr
      rintro rfl
      cases hLetter
    · rw [Cursor.test_zero, hRest]
      rfl
  have hSkip : (c.skip s.length).rest = trail := by
    rw [Cursor.skip, hRest]
    exact List.drop_left
  have hNonempty := hBare.ne_nil
  obtain ⟨bound, hBound⟩ : ∃ bound, c.rest.length = bound + 1 := by
    apply Nat.exists_eq_succ_of_ne_zero
    rw [hRest]
    simp [hNonempty]
  have hMark := Cursor.atDocumentMark_of_bare hBare hRest
  have hStart : plainScalar false 0 c = _ := plainFrom_run hMark hHash hRun hNonempty
  rw [hStart]
  by_cases hTest : (c.skip s.length).test 0 isGap = true
  · have hRead : ∃ gap c', Gap.empty.read 0 (c.skip s.length).rest.length (c.skip s.length) =
        .ok (gap, c') ∧ c'.rest = [] := by
      apply gap_read_space
      · rw [hSkip]
        exact hTrail
      · exact Nat.le_refl _
    obtain ⟨gap, c', hRead, hEnd⟩ := hRead
    rw [if_pos hTest, hRead, hBound]
    exact ⟨gap.broken, c', plainFrom_nil hEnd, hEnd⟩
  · refine ⟨false, c.skip s.length, if_neg hTest, ?_⟩
    rw [hSkip]
    cases trail with
    | nil => rfl
    | cons d trail =>
      rw [Cursor.test_zero, hSkip] at hTest
      exact absurd (hGap d rfl) hTest

end Reshape.Yaml
