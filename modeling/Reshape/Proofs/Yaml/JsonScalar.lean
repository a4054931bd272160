import Reshape.Proofs.Json.BareText
import Reshape.Proofs.Yaml.Embedding
import Reshape.Proofs.Yaml.PlainText

/-!
# Words and numbers of JSON as plain scalars

The words of JSON are plain scalars of the same value. A number is an integer if it is a numeral
that fits 64 bits, and it is refused if it fits only 128 bits; every other number is the nearest
double.
-/

namespace Reshape

namespace Text

theorem digitValue?_ten (c : Char) :
    digitValue? 10 c = if isDigit c then some (digitValue c) else none := by
  by_cases hDigit : isDigit c = true
  · have hRange : '0' ≤ c ∧ c ≤ '9' := by simpa [isDigit] using hDigit
    have hValue : decide (digitValue c < 10) = true := decide_eq_true (Json.digitValue_lt hDigit)
    rw [digitValue?, if_pos hRange, if_pos hDigit, Option.filter_some]
    exact if_pos hValue
  · have hRange : ¬ ('0' ≤ c ∧ c ≤ '9') := by simpa [isDigit] using hDigit
    rw [digitValue?, if_neg hRange, if_neg hDigit]
    -- A letter counts for ten at least.
    split
    · simp
    · split
      · simp
      · rfl

theorem continueNumeral?_ten (start : Nat) (s : List Char) :
    continueNumeral? 10 start s =
      if s.all isDigit then some (s.foldl (fun n c => n * 10 + digitValue c) start) else none := by
  induction s generalizing start with
  | nil => rfl
  | cons c rest ih =>
    rw [continueNumeral?, digitValue?_ten]
    cases hc : isDigit c with
    | false => simp [hc]
    | true => simp [hc, ih]

theorem numeral?_ten {s : List Char} (h : s ≠ []) :
    numeral? 10 s = if s.all isDigit then some (ofDigits s) else none := by
  cases s with
  | nil => exact absurd rfl h
  | cons c rest => exact continueNumeral?_ten 0 (c :: rest)

end Text

namespace Yaml.Plain

open Json (IsUnsigned IsNumberText isNumberChar startsWithDigit)
open Text (isDigit ofDigits IsNumeral)

variable {s : List Char}

/-- A digit is in front, or a minus sign and then a digit. -/
def beginsNumber : List Char → Bool
  | '-' :: rest => startsWithDigit rest
  | s => startsWithDigit s

theorem beginsNumber_numberText (h : IsNumberText s) : beginsNumber s = true := by
  obtain hText | ⟨body, hText, rfl⟩ := h
  · obtain ⟨c, rest, rfl, hc, _⟩ := hText.first
    unfold beginsNumber
    split
    · rename_i hMinus
      cases hMinus
      cases hc
    · exact hc
  · obtain ⟨c, rest, rfl, hc, _⟩ := hText.first
    exact hc

theorem not_word {words : List String} (hWords : ∀ w ∈ words, beginsNumber w.toList = false)
    (hs : beginsNumber s = true) : (words.any (·.toList == s)) = false := by
  rw [List.any_eq_false]
  intro w hw hEqual
  have hWord := hWords w hw
  rw [beq_iff_eq.mp hEqual, hs] at hWord
  cases hWord

theorem isNull_numberText (h : IsNumberText s) : isNull s = false :=
  not_word (by decide) (beginsNumber_numberText h)

theorem bool?_numberText (h : IsNumberText s) : bool? s = none := by
  have hBegins := beginsNumber_numberText h
  rw [bool?, not_word (by decide) hBegins, not_word (by decide) hBegins]
  rfl

theorem double?_numberText (h : IsNumberText s) :
    double? s = (Text.binary64? s).filter (·.isFinite) := by
  have hBegins := beginsNumber_numberText h
  have hPlus : s.head? ≠ some '+' := by
    intro hHead
    obtain ⟨rest, rfl⟩ := List.head?_eq_some_iff.mp hHead
    cases hBegins
  simp only [double?, if_neg hPlus]
  rw [if_neg (by simp [hPlus]), not_word (by decide) hBegins, not_word (by decide) hBegins,
    not_word (by decide) hBegins]
  rfl

/-! ## Numerals -/

theorem marked?_unsigned (h : IsUnsigned s) : marked? s = none := by
  unfold marked?
  split
  · have hc := h.chars 'x' (by simp)
    cases hc
  · have hc := h.chars 'o' (by simp)
    cases hc
  · have hc := h.chars 'b' (by simp)
    cases hc
  · rfl

theorem startsWithSign_unsigned (h : IsUnsigned s) : startsWithSign s = false := by
  obtain ⟨c, rest, rfl, hc, _⟩ := h.first
  rw [startsWithSign, Bool.or_eq_false_iff]
  constructor
  · apply beq_eq_false_iff_ne.mpr
    rintro rfl
    cases hc
  · apply beq_eq_false_iff_ne.mpr
    rintro rfl
    cases hc

theorem splitSign_unsigned (h : IsUnsigned s) : Text.splitSign s = (false, s) := by
  obtain ⟨c, rest, rfl, hc, _⟩ := h.first
  unfold Text.splitSign
  split
  · rename_i hSign
    cases hSign
    cases hc
  · rename_i hSign
    cases hSign
    cases hc
  · rfl

theorem not_padded_unsigned (h : IsUnsigned s) :
    (1 < s.length && s.head? == some '0' && s.all isDigit) = false := by
  obtain ⟨c, rest, rfl, hc, hZero⟩ := h.first
  rw [Bool.eq_false_iff]
  intro hPadded
  simp only [Bool.and_eq_true, decide_eq_true_eq, List.head?_cons, beq_iff_eq, Option.some.injEq,
    List.all_cons] at hPadded
  obtain ⟨⟨hLength, hFirst⟩, _, hDigits⟩ := hPadded
  cases rest with
  | nil => simp at hLength
  | cons d rest =>
    have hd := hZero hFirst
    rw [List.all_cons, show isDigit d = false from hd] at hDigits
    cases hDigits

theorem isPaddedNumeral_numberText (h : IsNumberText s) : isPaddedNumeral s = false := by
  obtain hText | ⟨body, hText, rfl⟩ := h
  · rw [isPaddedNumeral, startsWithSign_unsigned hText]
    exact not_padded_unsigned hText
  · exact not_padded_unsigned hText

theorem integer?_unsigned (h : IsUnsigned s) :
    integer? s = if s.all isDigit then some (ofDigits s : Int) else none := by
  simp only [integer?, splitSign_unsigned h, marked?_unsigned h,
    isPaddedNumeral_numberText (.inl h), Text.numeral?_ten h.ne_nil]
  cases s.all isDigit <;> rfl

theorem integer?_minus (h : IsUnsigned s) :
    integer? ('-' :: s) = if s.all isDigit then some (-ofDigits s : Int) else none := by
  simp only [integer?, Text.splitSign, marked?_unsigned h,
    isPaddedNumeral_numberText (.inr ⟨s, h, rfl⟩), Text.numeral?_ten h.ne_nil]
  cases s.all isDigit <;> rfl

theorem integer?_eq_some_iff (h : IsNumberText s) {n : Int} :
    integer? s = some n ↔ IsNumeral s n := by
  constructor
  · intro hInteger
    obtain hText | ⟨body, hText, rfl⟩ := h
    · rw [integer?_unsigned hText] at hInteger
      split at hInteger
      · rename_i hDigits
        cases hInteger
        exact .unsigned hText.ne_nil hDigits
      · cases hInteger
    · rw [integer?_minus hText] at hInteger
      split at hInteger
      · rename_i hDigits
        cases hInteger
        exact .minus hText.ne_nil hDigits
      · cases hInteger
  · intro hNumeral
    obtain hText | ⟨body, hText, rfl⟩ := h
    · rw [integer?_unsigned hText]
      cases hNumeral with
      | unsigned _ hDigits => exact if_pos hDigits
      | minus _ _ =>
        have hSign := startsWithSign_unsigned hText
        cases hSign
    · rw [integer?_minus hText]
      cases hNumeral with
      | unsigned _ hDigits => cases hDigits
      | minus _ hDigits => exact if_pos hDigits

/-! ## Values -/

theorem resolve?_numberText (h : IsNumberText s) :
    resolve? s = match size s with
      | .fits n => some (.number (.integer n))
      | .tooLarge => none
      | .none =>
        match (Text.binary64? s).filter (·.isFinite) with
        | some x => some (.number (.double x))
        | none => some (.string s) := by
  have hNonempty : s ≠ [] := by
    rintro rfl
    cases beginsNumber_numberText h
  have hNull : ¬ (decide (s = []) || isNull s) = true := by simp [hNonempty, isNull_numberText h]
  rw [resolve?, if_neg hNull, bool?_numberText h, isPaddedNumeral_numberText h,
    double?_numberText h]
  rfl

theorem resolve?_of_isNumeral (h : IsNumberText s) {n : Int} (hNumeral : IsNumeral s n)
    (hFits : (Number.integer n).WellFormed) : resolve? s = some (.number (.integer n)) := by
  have hSize : size s = .fits n := by
    rw [size, (integer?_eq_some_iff h).mpr hNumeral]
    exact if_pos hFits
  rw [resolve?_numberText h, hSize]

theorem wellFormed_of_size {n : Int} (h : size s = .fits n) : (Number.integer n).WellFormed := by
  unfold size at h
  split at h
  · split at h
    · cases h
      assumption
    · split at h <;> cases h
  · cases h

theorem wellFormed_of_resolve? (h : IsNumberText s) {n : Number}
    (hResolve : resolve? s = some (.number n)) : n.WellFormed := by
  rw [resolve?_numberText h] at hResolve
  split at hResolve
  · rename_i k hSize
    cases hResolve
    exact wellFormed_of_size hSize
  · cases hResolve
  · split at hResolve
    · rename_i hFilter
      cases hResolve
      exact (Option.filter_eq_some_iff.mp hFilter).2
    · cases hResolve

/-- The text stands for the double nearest to it, since it is no numeral that fits 128 bits. -/
def DenotesDouble (s : List Char) (x : Binary64) : Prop :=
  Text.binary64? s = some x ∧ ∀ n, IsNumeral s n → n < -2 ^ 127 ∨ 2 ^ 128 ≤ n

theorem size_eq_none_iff (h : IsNumberText s) :
    size s = .none ↔ ∀ n, IsNumeral s n → n < -2 ^ 127 ∨ 2 ^ 128 ≤ n := by
  simp only [← integer?_eq_some_iff h]
  unfold size
  cases integer? s with
  | none => simp
  | some n =>
    simp only [Option.some.injEq, forall_eq']
    split
    · constructor
      · rintro ⟨⟩
      · omega
    · split
      · constructor
        · rintro ⟨⟩
        · omega
      · constructor
        · omega
        · exact fun _ => rfl

theorem resolve?_eq_double_iff (h : IsNumberText s) {x : Binary64} (hFinite : x.isFinite = true) :
    resolve? s = some (.number (.double x)) ↔ DenotesDouble s x := by
  rw [resolve?_numberText h, DenotesDouble, ← size_eq_none_iff h]
  cases hSize : size s with
  | fits n => simp
  | tooLarge => simp
  | none =>
    cases hNumber : Text.binary64? s with
    | none => simp
    | some y =>
      cases hy : y.isFinite with
      | true => simp [Option.filter, hy]
      | false =>
        have hNotSame : y ≠ x := by
          rintro rfl
          rw [hFinite] at hy
          cases hy
        simp [Option.filter, hy, hNotSame]

end Yaml.Plain

/-! ## Words and numbers -/

namespace Yaml

open Json (BareText IsUnsigned isNumberChar)

variable {body : List Char} {v : Value}

theorem isBareChar_of_isNumberChar {c : Char} (h : isNumberChar c = true) :
    isBareChar c = true := by
  simp only [isNumberChar, Bool.or_eq_true, beq_iff_eq] at h
  rcases h with ((((hDigit | rfl) | rfl) | rfl) | rfl) | rfl
  · have hDigit : c.isDigit = true := hDigit
    simp [isBareChar, Char.isAlphanum, hDigit]
  · decide
  · decide
  · decide
  · decide
  · decide

theorem bare_of_isUnsigned {s : List Char} (h : IsUnsigned s) :
    (∀ c ∈ s, isBareChar c = true) ∧ ∃ c rest, c.isAlphanum = true ∧ s = c :: rest := by
  obtain ⟨c, rest, rfl, hDigit, _⟩ := h.first
  have hDigit : c.isDigit = true := hDigit
  refine ⟨fun d hd => isBareChar_of_isNumberChar (h.chars d hd), c, rest, ?_, rfl⟩
  simp [Char.isAlphanum, hDigit]

theorem bare_of_bareText (h : BareText body v) : Bare body := by
  cases h with
  | null => exact ⟨List.all_eq_true.mp (by decide), 'n', _, by decide, .inl rfl⟩
  | yes => exact ⟨List.all_eq_true.mp (by decide), 't', _, by decide, .inl rfl⟩
  | no => exact ⟨List.all_eq_true.mp (by decide), 'f', _, by decide, .inl rfl⟩
  | number hText _ =>
    obtain hText | ⟨digits, hText, rfl⟩ := hText
    · obtain ⟨hChars, c, rest, hc, rfl⟩ := bare_of_isUnsigned hText
      exact ⟨hChars, c, rest, hc, .inl rfl⟩
    · obtain ⟨hChars, c, rest, hc, rfl⟩ := bare_of_isUnsigned hText
      exact ⟨List.forall_mem_cons.mpr ⟨by decide, hChars⟩, c, rest, hc, .inr rfl⟩

theorem toValue_number {n : Number} (h : n.WellFormed) (path : Path) :
    (Node.ofPlain (.number n)).toValue path = .ok (.number n) := by
  rw [Node.ofPlain, Node.toValue, Node.numberValue_of_wellFormed h]

/-- A plain scalar whose value is a number is this number. -/
theorem eq_number_of_toValue {p : Plain} {n : Number}
    (hFits : ∀ m, p = .number m → m.WellFormed)
    (h : (Node.ofPlain p).toValue [] = .ok (.number n)) : p = .number n := by
  cases p with
  | null => cases h
  | bool b => cases h
  | string s => cases h
  | number m =>
    rw [toValue_number (hFits m rfl)] at h
    cases h
    rfl

/-- Of all texts without brackets and quotes only doubles may be resolved to something else. -/
theorem resolve?_bareText_iff (h : BareText body v) (hv : v.WellFormed) :
    (∃ p, Plain.resolve? body = some p ∧ (Node.ofPlain p).toValue [] = .ok v) ↔
      ∀ x, v = .number (.double x) → Plain.DenotesDouble body x := by
  cases h with
  | null =>
    constructor
    · rintro _ x ⟨⟩
    · intro _
      exact ⟨.null, rfl, rfl⟩
  | yes =>
    constructor
    · rintro _ x ⟨⟩
    · intro _
      exact ⟨.bool true, rfl, rfl⟩
  | no =>
    constructor
    · rintro _ x ⟨⟩
    · intro _
      exact ⟨.bool false, rfl, rfl⟩
  | @number _ n hText hInteger =>
    have hn : n.WellFormed := hv
    cases n with
    | integer k =>
      constructor
      · rintro _ x ⟨⟩
      · intro _
        have hResolve := Plain.resolve?_of_isNumeral hText (hInteger k rfl) hn
        exact ⟨_, hResolve, toValue_number hn []⟩
    | double x =>
      have hDouble := Plain.resolve?_eq_double_iff hText hn
      constructor
      · rintro ⟨p, hResolve, hValue⟩ _ ⟨⟩
        apply hDouble.mp
        have hp : p = .number (.double x) := by
          apply eq_number_of_toValue _ hValue
          rintro m rfl
          exact Plain.wellFormed_of_resolve? hText hResolve
        rw [hResolve, hp]
      · intro hDenotes
        exact ⟨_, hDouble.mpr (hDenotes x rfl), toValue_number hn []⟩

theorem exists_resolvePlain_iff (s : List Char) :
    (∃ n, Node.resolvePlain s = .ok n ∧ n.toValue [] = .ok v) ↔
      ∃ p, Plain.resolve? s = some p ∧ (Node.ofPlain p).toValue [] = .ok v := by
  rw [Node.resolvePlain]
  cases Plain.resolve? s with
  | none => simp
  | some p => simp

end Yaml

end Reshape
