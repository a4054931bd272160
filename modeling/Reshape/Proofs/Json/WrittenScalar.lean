import Reshape.Json.Writer
import Reshape.Proofs.Except
import Reshape.Proofs.Json.Reads

/-!
# Reading written scalars

An integer is read back from its decimal numeral, if what comes behind does not continue a number,
and a string from its quoted text.
-/

namespace Reshape.Json

open Text (isDigit digitValue decimal)

/-- The text does not continue a number. -/
def Delimited (s : List Char) : Prop :=
  ∀ c ∈ s.head?, isDigit c = false ∧ c ≠ '.' ∧ c ≠ 'e' ∧ c ≠ 'E'

theorem delimited_nil : Delimited [] := by
  intro c hc
  cases hc

theorem delimited_cons {c : Char} (s : List Char)
    (h : isDigit c = false ∧ c ≠ '.' ∧ c ≠ 'e' ∧ c ≠ 'E') : Delimited (c :: s) := by
  intro d hd
  cases hd
  exact h

/-- From `text`, whatever comes behind it, the step reads `a`. -/
def Recovers (step : Step α) (text : List Char) (a : α) : Prop :=
  ∀ rest, Delimited rest → step (text ++ rest) = .ok (a, rest)

/-! ## Numbers -/

theorem startsWithDigit_of_delimited {s : List Char} (h : Delimited s) :
    startsWithDigit s = false := by
  cases s with
  | nil => rfl
  | cons c rest => exact (h c rfl).1

theorem readRemainder_of_delimited (negative : Bool) (n : Nat) {s : List Char} (h : Delimited s) :
    readRemainder negative n s = .ok (integerValue negative n, s) := by
  unfold readRemainder
  split
  · exact absurd rfl (h '.' rfl).2.1
  · exact absurd rfl (h 'e' rfl).2.2.1
  · exact absurd rfl (h 'E' rfl).2.2.2
  · rfl

theorem le_ofDigitChars (digits : List Char) (n : Nat) : n ≤ Nat.ofDigitChars 10 digits n := by
  induction digits generalizing n with
  | nil => exact Nat.le_refl n
  | cons c digits ih =>
    rw [Nat.ofDigitChars_cons]
    exact Nat.le_trans (by omega) (ih _)

theorem gather_digits {digits s : List Char} (hDigits : ∀ c ∈ digits, isDigit c = true)
    (hBehind : startsWithDigit s = false) {n : Nat} (count : Nat)
    (hFits : Nat.ofDigitChars 10 digits n < 2 ^ 64) :
    gather n count (digits ++ s) =
      (Nat.ofDigitChars 10 digits n, count + digits.length, s) := by
  induction digits generalizing n count with
  | nil =>
    cases s with
    | nil => rfl
    | cons c rest =>
      have hc : isDigit c = false := hBehind
      simp [gather, hc]
  | cons c digits ih =>
    obtain ⟨hc, hDigits⟩ := List.forall_mem_cons.mp hDigits
    have hNext : n * 10 + digitValue c = 10 * n + (c.toNat - '0'.toNat) := by
      rw [Nat.mul_comm, digitValue]
    rw [Nat.ofDigitChars_cons, ← hNext] at hFits ⊢
    have hFirst : fits n c = true := decide_eq_true (Nat.lt_of_le_of_lt (le_ofDigitChars _ _) hFits)
    rw [List.cons_append, gather, hc, hFirst]
    simp only [Bool.and_self, if_true]
    rw [ih hDigits _ hFits, List.length_cons]
    congr 2
    omega

theorem isDigit_of_mem_decimal {n : Nat} {c : Char} (h : c ∈ decimal n) : isDigit c = true := by
  have hBase : 0 < 10 := by decide
  exact Nat.isDigit_of_mem_toDigits hBase (Nat.le_refl 10) h

theorem exists_decimal_eq_cons {n : Nat} (h : 0 < n) :
    ∃ c digits, decimal n = c :: digits ∧ c ≠ '0' := by
  induction n using Nat.strongRecOn with
  | _ n ih =>
    by_cases hSmall : n < 10
    · refine ⟨n.digitChar, [], Nat.toDigits_of_lt_base hSmall, ?_⟩
      have hDigits : ∀ k < 10, 0 < k → k.digitChar ≠ '0' := by decide
      exact hDigits n hSmall h
    · obtain ⟨c, digits, hDecimal, hc⟩ := ih (n / 10) (by omega) (by omega)
      refine ⟨c, digits ++ [(n % 10).digitChar], ?_, hc⟩
      rw [decimal] at hDecimal ⊢
      rw [Nat.toDigits_of_base_le (by decide) (Nat.le_of_not_lt hSmall), hDecimal,
        List.cons_append]

theorem recovers_decimal (negative : Bool) {n : Nat} (h : n < 2 ^ 64) :
    Recovers (readNumber negative) (decimal n) (integerValue negative n) := by
  intro rest hRest
  have hBehind := startsWithDigit_of_delimited hRest
  rcases Nat.eq_zero_or_pos n with rfl | hPos
  · change readNumber negative ('0' :: rest) = _
    rw [readNumber, hBehind]
    exact readRemainder_of_delimited negative 0 hRest
  · obtain ⟨c, digits, hDecimal, hc⟩ := exists_decimal_eq_cons hPos
    have hDigits : ∀ d ∈ c :: digits, isDigit d = true := by
      rw [← hDecimal]
      exact fun d => isDigit_of_mem_decimal
    obtain ⟨hFirst, hDigits⟩ := List.forall_mem_cons.mp hDigits
    have hValue : Nat.ofDigitChars 10 digits (digitValue c) = n := by
      have hAll := Nat.ofDigitChars_ten_toDigits (n := n)
      rw [show Nat.toDigits 10 n = c :: digits from hDecimal, Nat.ofDigitChars_cons] at hAll
      simpa [digitValue] using hAll
    have hGather := gather_digits hDigits hBehind 0 (by rw [hValue]; exact h)
    rw [hValue] at hGather
    rw [hDecimal, List.cons_append, readNumber]
    · simp [hFirst, hGather, hBehind, readRemainder_of_delimited negative n hRest]
    · exact hc

theorem skipSpace_cons {c : Char} (h : isSpace c = false) (s : List Char) :
    skipSpace (c :: s) = c :: s := by
  rw [skipSpace, List.dropWhile_cons, h]
  rfl

theorem isSpace_of_isDigit {c : Char} (h : isDigit c = true) : isSpace c = false := by
  rw [Bool.eq_false_iff]
  intro hSpace
  simp only [isSpace, Bool.or_eq_true, beq_iff_eq] at hSpace
  rcases hSpace with ((rfl | rfl) | rfl) | rfl <;> cases h

theorem readWith_digit (array object : Step Value) {c : Char} (hc : isDigit c = true)
    (s : List Char) : readWith array object (c :: s) = readNumber false (c :: s) := by
  unfold readWith
  rw [skipSpace_cons (isSpace_of_isDigit hc)]
  split
  · rename_i hNil
    cases hNil
  iterate 7
    · rename_i hOther
      cases hOther
      cases hc
  · rename_i hCons
    cases hCons
    exact if_pos hc

theorem integerValue_natAbs {n : Int} (h : (Number.integer n).WellFormed) :
    integerValue (n < 0) n.natAbs = .number (.integer n) := by
  have hLow : -2 ^ 63 ≤ n := h.1
  by_cases hNegative : n < 0
  · have hBound : ¬ (n.natAbs = 0 ∨ 2 ^ 63 < n.natAbs) := by omega
    have hAbs : -(n.natAbs : Int) = n := by omega
    rw [integerValue, decide_eq_true hNegative, if_neg (by simp), if_neg hBound, hAbs]
  · have hAbs : (n.natAbs : Int) = n := by omega
    rw [integerValue, decide_eq_false hNegative, if_pos (by simp), hAbs]

theorem recovers_signedDecimal (array object : Step Value) {n : Int}
    (h : (Number.integer n).WellFormed) :
    Recovers (readWith array object) (Text.signedDecimal n) (.number (.integer n)) := by
  intro rest hRest
  have hBound : n.natAbs < 2 ^ 64 := by
    obtain ⟨hLow, hHigh⟩ := h
    omega
  have hRead := recovers_decimal (n < 0) hBound rest hRest
  rw [integerValue_natAbs h] at hRead
  by_cases hNegative : n < 0
  · rw [Text.signedDecimal, if_pos hNegative, List.cons_append]
    rw [decide_eq_true hNegative] at hRead
    exact hRead
  · obtain ⟨c, digits, hDecimal⟩ : ∃ c digits, decimal n.natAbs = c :: digits :=
      List.exists_cons_of_ne_nil Nat.toDigits_ne_nil
    have hc : isDigit c = true := isDigit_of_mem_decimal (hDecimal ▸ List.mem_cons_self)
    rw [decide_eq_false hNegative, hDecimal, List.cons_append] at hRead
    rw [Text.signedDecimal, if_neg hNegative, hDecimal, List.cons_append,
      readWith_digit array object hc]
    exact hRead

/-! ## Strings -/

theorem hexValue_control {n : Nat} (h : n < 32) :
    hexValue '0' '0' (hexDigit (n / 16)) (hexDigit (n % 16)) = some n := by
  have hAll : ∀ k < 32, hexValue '0' '0' (hexDigit (k / 16)) (hexDigit (k % 16)) = some k := by
    decide
  exact hAll n h

theorem readUnicodeEscape_control {c : Char} (h : c < ' ') (rest : List Char) :
    readUnicodeEscape ('0' :: '0' :: hexDigit (c.toNat / 16) :: hexDigit (c.toNat % 16) :: rest) =
      .ok (c, rest) := by
  have hSmall : c.toNat < 32 := h
  rw [readUnicodeEscape, readHex, hexValue_control hSmall]
  change (if _ then _ else if _ then Except.ok (Char.ofNat c.toNat, rest) else _) = _
  rw [if_neg (by omega), if_pos (by omega), Char.ofNat_toNat]

theorem exists_charText_eq_escape {c : Char} (h : c = '"' ∨ c = '\\' ∨ c < ' ') (rest : List Char) :
    ∃ escape, charText c = '\\' :: escape ∧ readEscape (escape ++ rest) = .ok (c, rest) := by
  by_cases hLetter : c ∈ ['"', '\\', '\x08', '\x0c', '\n', '\r', '\t']
  · simp only [List.mem_cons, List.not_mem_nil, or_false] at hLetter
    rcases hLetter with rfl | rfl | rfl | rfl | rfl | rfl | rfl <;> exact ⟨_, rfl, rfl⟩
  · simp only [List.mem_cons, List.not_mem_nil, or_false, not_or] at hLetter
    obtain ⟨hQuote, hBackslash, hLetter⟩ := hLetter
    have hControl : c < ' ' := (h.resolve_left hQuote).resolve_left hBackslash
    refine ⟨['u', '0', '0', hexDigit (c.toNat / 16), hexDigit (c.toNat % 16)], ?_,
      readUnicodeEscape_control hControl rest⟩
    rw [charText, if_neg hQuote, if_neg hBackslash, if_pos hControl]
    simp [controlText, hLetter]

theorem charText_of_plain {c : Char} (h : ¬ (c = '"' ∨ c = '\\' ∨ c < ' ')) : charText c = [c] := by
  simp only [not_or] at h
  rw [charText, if_neg h.1, if_neg h.2.1, if_neg h.2.2]

/-- What is written for a character is read as this character. -/
theorem readStringWithin_charText (bound : Nat) (c : Char) (s : List Char) :
    readStringWithin (bound + 1) (charText c ++ s) =
      (readStringWithin bound s >>= fun (text, rest) => .ok (c :: text, rest)) := by
  by_cases hEscaped : c = '"' ∨ c = '\\' ∨ c < ' '
  · obtain ⟨escape, hText, hRead⟩ := exists_charText_eq_escape hEscaped s
    rw [hText, List.cons_append, readStringWithin, hRead]
    rfl
  · rw [charText_of_plain hEscaped, List.singleton_append]
    simp only [not_or] at hEscaped
    obtain ⟨hQuote, hBackslash, hControl⟩ := hEscaped
    rw [readStringWithin, if_neg hControl]
    · exact hQuote
    · exact hBackslash

theorem length_le_flatMap_charText (text : List Char) :
    text.length ≤ (text.flatMap charText).length := by
  have hPos (c : Char) : 1 ≤ (charText c).length := by
    by_cases hEscaped : c = '"' ∨ c = '\\' ∨ c < ' '
    · obtain ⟨escape, hText, _⟩ := exists_charText_eq_escape hEscaped []
      simp [hText]
    · simp [charText_of_plain hEscaped]
  induction text with
  | nil => exact Nat.le_refl 0
  | cons c text ih =>
    have hc := hPos c
    rw [List.flatMap_cons, List.length_append, List.length_cons]
    omega

theorem readStringWithin_flatMap {bound : Nat} {text : List Char} (h : text.length < bound)
    (rest : List Char) :
    readStringWithin bound (text.flatMap charText ++ '"' :: rest) = .ok (text, rest) := by
  induction text generalizing bound with
  | nil =>
    cases bound with
    | zero => cases h
    | succ bound => rfl
  | cons c text ih =>
    cases bound with
    | zero => cases h
    | succ bound =>
      rw [List.flatMap_cons, List.append_assoc, readStringWithin_charText,
        ih (Nat.lt_of_succ_lt_succ h)]
      rfl

/-- A string is read behind its opening quote. -/
theorem readString_flatMap (s : String) (rest : List Char) :
    readString (s.toList.flatMap charText ++ '"' :: rest) = .ok (s, rest) := by
  have hLength := length_le_flatMap_charText s.toList
  rw [readString, readStringWithin_flatMap]
  · change Except.ok (String.ofList s.toList, rest) = _
    rw [String.ofList_toList]
  · rw [List.length_append]
    omega

end Reshape.Json
