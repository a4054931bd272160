import Reshape.Proofs.Json.Reads
import Reshape.Proofs.Value.Index
import Reshape.Value.Coercion

/-!
# Texts without brackets and quotes

A text whose value is neither a container nor a string is a word or a number between spaces. Of a
number what matters here are its characters and how it begins, and that it is a numeral if an
integer is read from it.
-/

namespace Reshape.Json

open Text (isDigit digitValue ofDigits IsNumeral)

def isNumberChar (c : Char) : Bool :=
  isDigit c || c == '.' || c == 'e' || c == 'E' || c == '+' || c == '-'

/-- A number without its sign: a digit begins it, and no digit is behind a zero at the beginning. -/
structure IsUnsigned (s : List Char) : Prop where
  chars : ∀ c ∈ s, isNumberChar c = true
  first : ∃ c rest, s = c :: rest ∧ isDigit c = true ∧ (c = '0' → startsWithDigit rest = false)

theorem IsUnsigned.ne_nil {s : List Char} (h : IsUnsigned s) : s ≠ [] := by
  obtain ⟨c, rest, rfl, _⟩ := h.first
  exact List.cons_ne_nil c rest

def IsNumberText (s : List Char) : Prop :=
  IsUnsigned s ∨ ∃ body, IsUnsigned body ∧ s = '-' :: body

/-- The text of a value that has neither a bracket nor a quote. -/
inductive BareText : List Char → Value → Prop
  | null : BareText ['n', 'u', 'l', 'l'] .null
  | yes : BareText ['t', 'r', 'u', 'e'] (.bool true)
  | no : BareText ['f', 'a', 'l', 's', 'e'] (.bool false)
  | number {s : List Char} {n : Number} (hText : IsNumberText s)
    (hInteger : ∀ k, n = .integer k → IsNumeral s k) : BareText s (.number n)

/-! ## Numbers -/

/-- What stands behind the digits in front of it makes a number a double. -/
def DoubleTail (t : List Char) (v : Value) : Prop :=
  (∀ c ∈ t, isNumberChar c = true) ∧ ∃ x, v = .number (.double x)

theorem isNumberChar_of_isDigit {c : Char} (h : isDigit c = true) : isNumberChar c = true := by
  simp [isNumberChar, h]

theorem doubleTail_nil (x : Binary64) : DoubleTail [] (.number (.double x)) :=
  ⟨by simp, x, rfl⟩

variable {s before : List Char} {result : Except Failure (Value × List Char)}

theorem Reads.doubleTail_behind (hBefore : ∀ c ∈ before, isNumberChar c = true)
    (h : Reads s result DoubleTail) : Reads (before ++ s) result DoubleTail := by
  refine Reads.behind before (h.mono fun taken v hTail => ?_)
  exact ⟨List.forall_mem_append.mpr ⟨hBefore, hTail.1⟩, hTail.2⟩

theorem Reads.doubleTail_cons {c : Char} (hc : isNumberChar c = true)
    (h : Reads s result DoubleTail) : Reads (c :: s) result DoubleTail := by
  have hBefore : ∀ d ∈ [c], isNumberChar d = true := by simpa using hc
  exact h.doubleTail_behind hBefore

theorem Reads.doubleTail_digits (hBefore : ∀ c ∈ before, isDigit c = true)
    (h : Reads s result DoubleTail) : Reads (before ++ s) result DoubleTail := by
  apply h.doubleTail_behind
  intro c hc
  exact isNumberChar_of_isDigit (hBefore c hc)

theorem Reads.doubleTail_dropWhile (h : Reads (s.dropWhile isDigit) result DoubleTail) :
    Reads s result DoubleTail := by
  have hDigits : ∀ c ∈ s.takeWhile isDigit, isDigit c = true := fun c => List.mem_takeWhile_imp
  have hBehind := h.doubleTail_digits hDigits
  rwa [List.takeWhile_append_dropWhile] at hBehind

theorem doubleTail_readDouble (negative : Bool) (significand : Nat) (exponent : Int)
    (s : List Char) : Reads s (readDouble negative significand exponent s) DoubleTail := by
  unfold readDouble
  simp only
  split
  · exact reads_ok s (doubleTail_nil _)
  · exact reads_failHere _ _

theorem doubleTail_readExponent (negative : Bool) (significand : Nat) (start : Int)
    (s : List Char) : Reads s (readExponent negative significand start s) DoubleTail := by
  unfold readExponent
  split
  rename_i down unsigned hSign
  obtain ⟨sign, rfl, hNumberChars⟩ :
      ∃ sign, s = sign ++ unsigned ∧ ∀ c ∈ sign, isNumberChar c = true := by
    split at hSign <;> cases hSign
    · exact ⟨['+'], rfl, List.all_eq_true.mp (by decide)⟩
    · exact ⟨['-'], rfl, List.all_eq_true.mp (by decide)⟩
    · exact ⟨[], rfl, by simp⟩
  apply Reads.doubleTail_behind hNumberChars
  split
  · exact reads_failHere _ _
  · rename_i c digits
    split
    · exact reads_failNext _ _
    · rename_i hDigit
      have hc : isDigit c = true := by simpa using hDigit
      obtain ⟨taken, hSplit, hTaken⟩ := gatherExponent_split (digitValue c) digits
      have hBehind {result : Except Failure (Value × List Char)}
          (h : Reads (afterExponent (gatherExponent (digitValue c) digits)) result DoubleTail) :
          Reads (c :: digits) result DoubleTail := by
        have hDigits := h.doubleTail_digits hTaken
        rw [← hSplit] at hDigits
        exact hDigits.doubleTail_cons (isNumberChar_of_isDigit hc)
      cases hGather : gatherExponent (digitValue c) digits with
      | ok read =>
        rw [hGather] at hBehind
        exact hBehind (doubleTail_readDouble _ _ _ _)
      | error rest =>
        rw [hGather] at hBehind
        apply hBehind
        simp only
        split
        · exact reads_failHere _ _
        · apply Reads.doubleTail_dropWhile
          exact reads_ok _ (doubleTail_nil _)

theorem doubleTail_readTail (negative : Bool) (significand : Nat) (exponent : Int)
    (s : List Char) : Reads s (readTail negative significand exponent s) DoubleTail := by
  unfold readTail
  split
  · exact (doubleTail_readExponent _ _ _ _).doubleTail_cons (by decide)
  · exact (doubleTail_readExponent _ _ _ _).doubleTail_cons (by decide)
  · exact doubleTail_readDouble _ _ _ _

theorem doubleTail_readFraction (negative : Bool) (significand : Nat) (exponent : Int)
    (s : List Char) : Reads s (readFraction negative significand exponent s) DoubleTail := by
  obtain ⟨digits, hSplit, hDigits, _⟩ := gather_split significand 0 s
  have hBehind {result : Except Failure (Value × List Char)}
      (h : Reads (gather significand 0 s).2.2 result DoubleTail) : Reads s result DoubleTail := by
    rw [hSplit]
    exact h.doubleTail_digits hDigits
  unfold readFraction
  simp only
  split
  · apply hBehind
    exact (doubleTail_readTail _ _ _ _).doubleTail_dropWhile
  · split
    · split
      · exact reads_failNext _ _
      · exact reads_failNext _ _
    · exact hBehind (doubleTail_readTail _ _ _ _)

/-- Behind the digits of a whole number: nothing, or what begins with no digit. -/
def Remainder (negative : Bool) (n : Nat) (t : List Char) (v : Value) : Prop :=
  (t = [] ∧ v = integerValue negative n) ∨ (startsWithDigit t = false ∧ DoubleTail t v)

theorem Reads.remainder {negative : Bool} {n : Nat} {c : Char} (hc : isNumberChar c = true)
    (hDigit : isDigit c = false) (h : Reads s result DoubleTail) :
    Reads (c :: s) result (Remainder negative n) := by
  have hBehind : Reads ([c] ++ s) result (Remainder negative n) := by
    refine Reads.behind [c] (h.mono fun taken v hTail => .inr ⟨hDigit, ?_, hTail.2⟩)
    exact List.forall_mem_cons.mpr ⟨hc, hTail.1⟩
  exact hBehind

theorem remainder_readRemainder (negative : Bool) (n : Nat) (s : List Char) :
    Reads s (readRemainder negative n s) (Remainder negative n) := by
  unfold readRemainder
  split
  · exact (doubleTail_readFraction _ _ _ _).remainder (by decide) (by decide)
  · exact (doubleTail_readExponent _ _ _ _).remainder (by decide) (by decide)
  · exact (doubleTail_readExponent _ _ _ _).remainder (by decide) (by decide)
  · exact reads_ok _ (.inl ⟨rfl, rfl⟩)

/-- The text of a number behind its sign, with the digits if it is an integer. -/
def BehindSign (negative : Bool) (s : List Char) (v : Value) : Prop :=
  IsUnsigned s ∧ ∃ n, v = .number n ∧ ∀ k, n = .integer k →
    (∀ c ∈ s, isDigit c = true) ∧ k = if negative then -(ofDigits s : Int) else ofDigits s

theorem integerValue_eq (negative : Bool) (n : Nat) :
    ∃ m, integerValue negative n = .number m ∧
      ∀ k, m = .integer k → k = if negative then -(n : Int) else n := by
  unfold integerValue
  cases negative with
  | false => exact ⟨.integer n, rfl, by rintro _ ⟨⟩; rfl⟩
  | true =>
    split
    · rename_i hPositive
      cases hPositive
    · split
      · exact ⟨_, rfl, by rintro _ ⟨⟩⟩
      · exact ⟨.integer (-n), rfl, by rintro _ ⟨⟩; rfl⟩

theorem behindSign_of_remainder {negative : Bool} {c : Char} {digits t : List Char} {v : Value}
    (hc : isDigit c = true) (hDigits : ∀ d ∈ digits, isDigit d = true)
    (hZero : c = '0' → digits = []) (h : Remainder negative (ofDigits (c :: digits)) t v) :
    BehindSign negative (c :: digits ++ t) v := by
  have hAll : ∀ d ∈ c :: digits, isDigit d = true := List.forall_mem_cons.mpr ⟨hc, hDigits⟩
  have hChars : ∀ d ∈ c :: digits, isNumberChar d = true := fun d hd =>
    isNumberChar_of_isDigit (hAll d hd)
  obtain ⟨rfl, rfl⟩ | ⟨hHead, hTail, x, rfl⟩ := h
  · obtain ⟨m, hValue, hInteger⟩ := integerValue_eq negative (ofDigits (c :: digits))
    rw [List.append_nil]
    refine ⟨⟨hChars, c, digits, rfl, hc, ?_⟩, m, hValue, fun k hk => ⟨hAll, hInteger k hk⟩⟩
    intro h
    rw [hZero h]
    rfl
  · refine ⟨⟨List.forall_mem_append.mpr ⟨hChars, hTail⟩, c, digits ++ t, rfl, hc, ?_⟩, _, rfl, ?_⟩
    · intro h
      rw [hZero h]
      exact hHead
    · rintro _ ⟨⟩

theorem behindSign_of_doubleTail {negative : Bool} {c : Char} {t : List Char} {v : Value}
    (hc : isDigit c = true) (hZero : c ≠ '0') (h : DoubleTail t v) :
    BehindSign negative (c :: t) v := by
  obtain ⟨hTail, x, rfl⟩ := h
  have hChars : ∀ d ∈ c :: t, isNumberChar d = true :=
    List.forall_mem_cons.mpr ⟨isNumberChar_of_isDigit hc, hTail⟩
  exact ⟨⟨hChars, c, t, rfl, hc, fun h => absurd h hZero⟩, _, rfl, by rintro _ ⟨⟩⟩

theorem behindSign_readNumber (negative : Bool) (s : List Char) :
    Reads s (readNumber negative s) (BehindSign negative) := by
  unfold readNumber
  split
  · exact reads_failHere _ _
  · rename_i rest
    split
    · exact reads_failNext _ _
    · refine Reads.behind ['0'] ((remainder_readRemainder negative 0 rest).mono fun t v h => ?_)
      exact behindSign_of_remainder (by decide) (by simp) (fun _ => rfl) h
  · rename_i c rest hNonzero
    split
    · exact reads_failNext _ _
    · rename_i hDigit
      have hc : isDigit c = true := by simpa using hDigit
      have hZero : c ≠ '0' := hNonzero
      obtain ⟨digits, hSplit, hDigits, hGathered⟩ := gather_split (digitValue c) 0 rest
      have hValue : (gather (digitValue c) 0 rest).1 = ofDigits (c :: digits) := by
        rw [hGathered, ofDigits, List.foldl_cons, Nat.zero_mul, Nat.zero_add]
      simp only
      split
      · -- Digits that do not fit 64 bits.
        have hDouble {result : Except Failure (Value × List Char)}
            (h : Reads ((gather (digitValue c) 0 rest).2.2.dropWhile isDigit) result DoubleTail) :
            Reads (c :: rest) result (BehindSign negative) := by
          have hBehind := h.doubleTail_dropWhile.doubleTail_digits hDigits
          rw [← hSplit] at hBehind
          refine Reads.behind [c] (hBehind.mono fun t v hTail => ?_)
          exact behindSign_of_doubleTail hc hZero hTail
        split
        · rename_i tail hDrop
          apply hDouble
          rw [hDrop]
          exact (doubleTail_readFraction _ _ _ _).doubleTail_cons (by decide)
        · exact hDouble (doubleTail_readTail _ _ _ _)
      · have hRemainder := remainder_readRemainder negative (ofDigits (c :: digits))
          (gather (digitValue c) 0 rest).2.2
        have hBehind := Reads.behind (c :: digits) (hRemainder.mono fun t v h =>
          behindSign_of_remainder hc hDigits (fun h => absurd h hZero) h)
        rw [List.cons_append, ← hSplit, ← hValue] at hBehind
        exact hBehind

/-! ## Values -/

theorem readWord_ok {value v : Value} {word s rest : List Char}
    (h : readWord value word s = .ok (v, rest)) : s = word ++ rest ∧ v = value := by
  induction word generalizing s with
  | nil =>
    cases h
    exact ⟨rfl, rfl⟩
  | cons w word ih =>
    cases s with
    | nil => cases h
    | cons c s =>
      unfold readWord at h
      split at h
      · rename_i hc
        obtain ⟨rfl, rfl⟩ := ih h
        exact ⟨congrArg (· :: _) hc, rfl⟩
      · cases h

theorem bareText_of_behindSign {negative : Bool} {s : List Char} {v : Value}
    (h : BehindSign negative s v) : BareText (if negative then '-' :: s else s) v := by
  obtain ⟨hText, n, rfl, hInteger⟩ := h
  cases negative with
  | false =>
    refine .number (.inl hText) fun k hk => ?_
    obtain ⟨hDigits, rfl⟩ := hInteger k hk
    exact .unsigned hText.ne_nil (List.all_eq_true.mpr hDigits)
  | true =>
    refine .number (.inr ⟨s, hText, rfl⟩) fun k hk => ?_
    obtain ⟨hDigits, rfl⟩ := hInteger k hk
    exact .minus hText.ne_nil (List.all_eq_true.mpr hDigits)

theorem BareText.not_isTextual {s : List Char} {v : Value} (h : BareText s v) :
    v.isTextual = false := by
  cases h <;> rfl

/-- A container or a string begins here. -/
def Opens (s : List Char) : Prop := ∃ c ∈ s.head?, c = '\x7b' ∨ c = '[' ∨ c = '"'

section

variable {element : Step Value} {rest : List Char} {v : Value}

theorem isTextual_of_readArray (h : readArray element s = .ok (v, rest)) : v.isTextual = true := by
  unfold readArray at h
  split at h
  · cases h
  · cases h
    rfl
  · obtain ⟨_, _, h⟩ := bind_eq_ok.mp h
    obtain ⟨_, _, h⟩ := bind_eq_ok.mp h
    cases h
    rfl

theorem isTextual_of_readObject (h : readObject element s = .ok (v, rest)) :
    v.isTextual = true := by
  unfold readObject at h
  split at h
  · cases h
  · cases h
    rfl
  · obtain ⟨_, _, h⟩ := bind_eq_ok.mp h
    obtain ⟨_, _, h⟩ := bind_eq_ok.mp h
    cases h
    rfl
  · cases h

end

theorem readWith_ok {array object : Step Value} {s rest : List Char} {v : Value}
    (hArray : ∀ s, array s = .ok (v, rest) → v.isTextual = true)
    (hObject : ∀ s, object s = .ok (v, rest) → v.isTextual = true)
    (h : readWith array object s = .ok (v, rest)) :
    (Opens (skipSpace s) ∧ v.isTextual = true) ∨
      ∃ body, skipSpace s = body ++ rest ∧ BareText body v := by
  have hNumber {negative : Bool} {s : List Char} (hRead : readNumber negative s = .ok (v, rest)) :
      ∃ body, s = body ++ rest ∧ BareText (if negative then '-' :: body else body) v := by
    obtain ⟨body, hSplit, hBody⟩ := behindSign_readNumber negative s v rest hRead
    exact ⟨body, hSplit, bareText_of_behindSign hBody⟩
  unfold readWith at h
  split at h
  · cases h
  · rename_i hSkip
    obtain ⟨rfl, rfl⟩ := readWord_ok h
    exact .inr ⟨_, hSkip, .null⟩
  · rename_i hSkip
    obtain ⟨rfl, rfl⟩ := readWord_ok h
    exact .inr ⟨_, hSkip, .yes⟩
  · rename_i hSkip
    obtain ⟨rfl, rfl⟩ := readWord_ok h
    exact .inr ⟨_, hSkip, .no⟩
  · rename_i hSkip
    obtain ⟨body, rfl, hBody⟩ := hNumber h
    exact .inr ⟨_, hSkip, hBody⟩
  · rename_i hSkip
    obtain ⟨_, _, h⟩ := bind_eq_ok.mp h
    cases h
    exact .inl ⟨⟨'"', by rw [hSkip]; rfl, .inr (.inr rfl)⟩, rfl⟩
  · rename_i hSkip
    exact .inl ⟨⟨'[', by rw [hSkip]; rfl, .inr (.inl rfl)⟩, hArray _ h⟩
  · rename_i hSkip
    exact .inl ⟨⟨'\x7b', by rw [hSkip]; rfl, .inl rfl⟩, hObject _ h⟩
  · rename_i hSkip
    split at h
    · obtain ⟨body, hSplit, hBody⟩ := hNumber h
      exact .inr ⟨body, hSkip.trans hSplit, hBody⟩
    · cases h

/--
What is read is a container or a string, at whose beginning its first character stands, or else a
word or a number with nothing but space behind it.
-/
theorem read_ok {text : String} {v : Value} (h : read text = .ok v) :
    (Opens (skipSpace text.toList) ∧ v.isTextual = true) ∨
      ∃ body trail, skipSpace text.toList = body ++ trail ∧ BareText body v ∧
        ∀ c ∈ trail, isSpace c = true := by
  obtain ⟨⟨w, rest⟩, hValue, hEnd⟩ := bind_eq_ok.mp (readText_of_read h)
  have hTrail : skipSpace rest = [] ∧ w = v := by
    simp only at hEnd
    split at hEnd
    · rename_i hSkip
      cases hEnd
      exact ⟨hSkip, rfl⟩
    · cases hEnd
  obtain ⟨hTrail, rfl⟩ := hTrail
  obtain hOpens | ⟨body, hSplit, hBody⟩ :=
    readWith_ok (fun _ => isTextual_of_readArray) (fun _ => isTextual_of_readObject) hValue
  · exact .inl hOpens
  · exact .inr ⟨body, rest, hSplit, hBody, List.dropWhile_eq_nil_iff.mp hTrail⟩

end Reshape.Json
