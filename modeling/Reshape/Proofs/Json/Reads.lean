import Reshape.Json.Reader
import Reshape.Proofs.Except
import Reshape.Proofs.Value.WellFormed
import Reshape.Proofs.Binary64.Finite

/-!
# What a reader takes and gives

A step that succeeds has split the text into a part that it took and the rest. The rules say how
this goes through the steps that follow each other; the readers of numbers are the first to be
taken through them, and give numbers that are well formed.
-/

namespace Reshape.Json

open Text (isDigit digitValue)

/-- What is read has `P`, together with the text that was taken, if anything is read. -/
def Reads (s : List Char) (result : Except Failure (α × List Char)) (P : List Char → α → Prop) :
    Prop :=
  ∀ a rest, result = .ok (a, rest) → ∃ taken, s = taken ++ rest ∧ P taken a

/-- More text around it takes `P` from nothing. -/
def Widens (P : List Char → α → Prop) : Prop :=
  ∀ taken text a, P taken a → taken <:+: text → P text a

theorem widens_const (P : α → Prop) : Widens fun _ a => P a := fun _ _ _ h _ => h

variable {s : List Char} {result : Except Failure (α × List Char)} {P : List Char → α → Prop}

theorem reads_ok {a : α} (rest : List Char) (h : P [] a) : Reads rest (.ok (a, rest)) P := by
  intro _ _ hResult
  cases hResult
  exact ⟨[], rfl, h⟩

theorem reads_error (failure : Failure) : Reads s (.error failure) P := by
  intro _ _ hResult
  cases hResult

theorem reads_failHere (cause : Cause) (rest : List Char) : Reads s (failHere cause rest) P :=
  reads_error _

theorem reads_failNext (cause : Cause) (rest : List Char) : Reads s (failNext cause rest) P :=
  reads_error _

theorem Reads.mono {Q : List Char → α → Prop} (h : Reads s result P)
    (hMono : ∀ taken a, P taken a → Q taken a) : Reads s result Q := by
  intro a rest hResult
  obtain ⟨taken, hSplit, ha⟩ := h a rest hResult
  exact ⟨taken, hSplit, hMono taken a ha⟩

theorem Reads.behind (before : List Char)
    (h : Reads s result fun taken => P (before ++ taken)) : Reads (before ++ s) result P := by
  intro a rest hResult
  obtain ⟨taken, rfl, ha⟩ := h a rest hResult
  exact ⟨before ++ taken, (List.append_assoc before taken rest).symm, ha⟩

theorem Reads.of_suffix {t : List Char} (hP : Widens P) (hSuffix : t <:+ s)
    (h : Reads t result P) : Reads s result P := by
  obtain ⟨before, rfl⟩ := hSuffix
  refine Reads.behind before (h.mono fun taken a ha => ?_)
  exact hP taken (before ++ taken) a ha (List.suffix_append before taken).isInfix

theorem Reads.bind {Q : List Char → β → Prop}
    {next : α × List Char → Except Failure (β × List Char)} (h : Reads s result P)
    (hNext : ∀ taken a rest, P taken a →
      Reads rest (next (a, rest)) fun behind => Q (taken ++ behind)) :
    Reads s (result >>= next) Q := by
  cases result with
  | error failure => exact reads_error failure
  | ok read =>
    obtain ⟨a, rest⟩ := read
    obtain ⟨taken, rfl, ha⟩ := h a rest rfl
    exact Reads.behind taken (hNext taken a rest ha)

@[simp]
theorem takeWhile_append_skipSpace (s : List Char) : s.takeWhile isSpace ++ skipSpace s = s :=
  List.takeWhile_append_dropWhile

theorem skipSpace_suffix (s : List Char) : skipSpace s <:+ s := List.dropWhile_suffix _

/-- What a match on the text behind the space finds is an end of the text. -/
theorem suffix_of_skipSpace {before rest : List Char} (h : skipSpace s = before ++ rest) :
    rest <:+ s :=
  ((List.suffix_append before rest).trans (h ▸ List.suffix_refl _)).trans (skipSpace_suffix s)

theorem readText_of_read {text : String} {v : Value} (h : read text = .ok v) :
    readText text.toList = .ok v := by
  unfold read at h
  split at h <;> cases h
  assumption

/-! ## Scalars -/

theorem reads_readWord {P : List Char → Value → Prop} (hP : Widens P) {value : Value}
    (h : P [] value) (word s : List Char) : Reads s (readWord value word s) P := by
  induction word generalizing s with
  | nil => exact reads_ok s h
  | cons w word ih =>
    cases s with
    | nil => exact reads_failHere _ _
    | cons c rest =>
      unfold readWord
      split
      · exact (ih rest).of_suffix hP (List.suffix_cons c rest)
      · exact reads_failNext _ _

def IsNumber (v : Value) : Prop := ∃ n : Number, n.WellFormed ∧ v = .number n

theorem isNumber_double (negative : Bool) {x : Binary64} (h : x.isFinite = true) :
    IsNumber (.number (.double ⟨negative, x.magnitude⟩)) :=
  ⟨.double ⟨negative, x.magnitude⟩, h, rfl⟩

theorem digitValue_lt {c : Char} (h : isDigit c = true) : digitValue c < 10 := by
  simp only [isDigit, Bool.and_eq_true, decide_eq_true_eq] at h
  have hUpper : c.toNat ≤ '9'.toNat := h.2
  have hNine : '9'.toNat = 57 := rfl
  have hZero : '0'.toNat = 48 := rfl
  rw [digitValue, hZero]
  omega

theorem gather_lt {n : Nat} (h : n < 2 ^ 64) (count : Nat) (s : List Char) :
    (gather n count s).1 < 2 ^ 64 := by
  induction s generalizing n count with
  | nil => exact h
  | cons c rest ih =>
    unfold gather
    split
    · rename_i hFits
      exact ih (of_decide_eq_true (Bool.and_eq_true_iff.mp hFits).2) (count + 1)
    · exact h

/-- The digits that are gathered continue `n`. -/
theorem gather_split (n count : Nat) (s : List Char) :
    ∃ digits, s = digits ++ (gather n count s).2.2 ∧ (∀ c ∈ digits, isDigit c = true) ∧
      (gather n count s).1 = digits.foldl (fun n c => n * 10 + digitValue c) n := by
  induction s generalizing n count with
  | nil => exact ⟨[], rfl, by simp, rfl⟩
  | cons c rest ih =>
    unfold gather
    split
    · rename_i hFits
      obtain ⟨digits, hSplit, hDigits, hValue⟩ := ih (n * 10 + digitValue c) (count + 1)
      refine ⟨c :: digits, congrArg (c :: ·) hSplit, ?_, hValue⟩
      exact List.forall_mem_cons.mpr ⟨(Bool.and_eq_true_iff.mp hFits).1, hDigits⟩
    · exact ⟨[], rfl, by simp, rfl⟩

theorem gather_suffix (n count : Nat) (s : List Char) : (gather n count s).2.2 <:+ s := by
  obtain ⟨digits, hSplit, _⟩ := gather_split n count s
  exact ⟨digits, hSplit.symm⟩

/-- What is left behind the digits of an exponent, whether it fits or not. -/
def afterExponent : Except (List Char) (Nat × List Char) → List Char
  | .ok (_, rest) => rest
  | .error rest => rest

theorem gatherExponent_split (n : Nat) (s : List Char) :
    ∃ digits, s = digits ++ afterExponent (gatherExponent n s) ∧
      ∀ c ∈ digits, isDigit c = true := by
  induction s generalizing n with
  | nil => exact ⟨[], rfl, by simp⟩
  | cons c rest ih =>
    unfold gatherExponent
    split
    · rename_i hDigit
      split
      · obtain ⟨digits, hSplit, hDigits⟩ := ih (n * 10 + digitValue c)
        refine ⟨c :: digits, congrArg (c :: ·) hSplit, ?_⟩
        exact List.forall_mem_cons.mpr ⟨hDigit, hDigits⟩
      · exact ⟨[c], rfl, by simpa using hDigit⟩
    · exact ⟨[], rfl, by simp⟩

theorem gatherExponent_suffix (n : Nat) (s : List Char) :
    afterExponent (gatherExponent n s) <:+ s := by
  obtain ⟨digits, hSplit, _⟩ := gatherExponent_split n s
  exact ⟨digits, hSplit.symm⟩

/-- What is read behind the beginning of a number still is a number. -/
theorem Reads.number_of_suffix {s t : List Char} {result : Except Failure (Value × List Char)}
    (h : Reads t result fun _ => IsNumber) (hSuffix : t <:+ s) :
    Reads s result fun _ => IsNumber :=
  h.of_suffix (widens_const IsNumber) hSuffix

theorem reads_readDouble (negative : Bool) (significand : Nat) (exponent : Int) (s : List Char) :
    Reads s (readDouble negative significand exponent s) fun _ => IsNumber := by
  unfold readDouble
  simp only
  split
  · rename_i hFinite
    exact reads_ok s (isNumber_double negative hFinite)
  · exact reads_failHere _ _

theorem reads_readExponent (negative : Bool) (significand : Nat) (start : Int) (s : List Char) :
    Reads s (readExponent negative significand start s) fun _ => IsNumber := by
  unfold readExponent
  split
  rename_i down unsigned hSign
  have hUnsigned : unsigned <:+ s := by
    split at hSign <;> cases hSign
    · exact List.suffix_cons _ _
    · exact List.suffix_cons _ _
    · exact List.suffix_refl _
  refine Reads.number_of_suffix ?_ hUnsigned
  split
  · exact reads_failHere _ _
  · rename_i c digits
    split
    · exact reads_failNext _ _
    · have hAfter := (gatherExponent_suffix (digitValue c) digits).trans (List.suffix_cons c digits)
      split <;> rename_i hGather <;> rw [hGather] at hAfter
      · exact (reads_readDouble _ _ _ _).number_of_suffix hAfter
      · split
        · exact reads_failHere _ _
        · refine Reads.number_of_suffix ?_ ((List.dropWhile_suffix isDigit).trans hAfter)
          exact reads_ok _ (isNumber_double negative Binary64.isFinite_zero)

theorem reads_readTail (negative : Bool) (significand : Nat) (exponent : Int) (s : List Char) :
    Reads s (readTail negative significand exponent s) fun _ => IsNumber := by
  unfold readTail
  split
  · exact (reads_readExponent _ _ _ _).number_of_suffix (List.suffix_cons _ _)
  · exact (reads_readExponent _ _ _ _).number_of_suffix (List.suffix_cons _ _)
  · exact reads_readDouble _ _ _ _

theorem reads_readFraction (negative : Bool) (significand : Nat) (exponent : Int)
    (s : List Char) : Reads s (readFraction negative significand exponent s) fun _ => IsNumber := by
  have hRest := gather_suffix significand 0 s
  unfold readFraction
  simp only
  split
  · refine (reads_readTail _ _ _ _).number_of_suffix ?_
    exact (List.dropWhile_suffix isDigit).trans hRest
  · split
    · split
      · exact reads_failNext _ _
      · exact reads_failNext _ _
    · exact (reads_readTail _ _ _ _).number_of_suffix hRest

theorem isNumber_integerValue (negative : Bool) {n : Nat} (h : n < 2 ^ 64) :
    IsNumber (integerValue negative n) := by
  unfold integerValue
  split
  · exact ⟨.integer n, ⟨by omega, by exact_mod_cast h⟩, rfl⟩
  · split
    · exact isNumber_double true (Binary64.isFinite_ofNat h (by decide))
    · exact ⟨.integer (-n), ⟨by omega, by omega⟩, rfl⟩

theorem reads_readRemainder (negative : Bool) {n : Nat} (h : n < 2 ^ 64) (s : List Char) :
    Reads s (readRemainder negative n s) fun _ => IsNumber := by
  unfold readRemainder
  split
  · exact (reads_readFraction _ _ _ _).number_of_suffix (List.suffix_cons _ _)
  · exact (reads_readExponent _ _ _ _).number_of_suffix (List.suffix_cons _ _)
  · exact (reads_readExponent _ _ _ _).number_of_suffix (List.suffix_cons _ _)
  · exact reads_ok _ (isNumber_integerValue negative h)

theorem reads_readNumber (negative : Bool) (s : List Char) :
    Reads s (readNumber negative s) fun _ => IsNumber := by
  unfold readNumber
  split
  · exact reads_failHere _ _
  · split
    · exact reads_failNext _ _
    · exact (reads_readRemainder negative (by decide) _).number_of_suffix (List.suffix_cons _ _)
  · rename_i c rest _
    split
    · exact reads_failNext _ _
    · rename_i hDigit
      have hFirst := digitValue_lt (by simpa using hDigit)
      have hGather := gather_lt (Nat.lt_trans hFirst (by decide)) 0 rest
      have hRest := (gather_suffix (digitValue c) 0 rest).trans (List.suffix_cons c rest)
      simp only
      split
      · have hDigits := (List.dropWhile_suffix isDigit).trans hRest
        split
        · rename_i tail hDrop
          refine (reads_readFraction _ _ _ _).number_of_suffix ?_
          exact ((List.suffix_cons '.' tail).trans (hDrop ▸ List.suffix_refl _)).trans hDigits
        · exact (reads_readTail _ _ _ _).number_of_suffix hDigits
      · exact (reads_readRemainder negative hGather _).number_of_suffix hRest

end Reshape.Json
