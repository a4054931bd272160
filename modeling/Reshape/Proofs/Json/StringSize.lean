import Reshape.Proofs.Json.Reads

/-!
# The size of a string and of its text

A string is smaller than the text it is read from, whether characters or bytes are counted: the
text has a closing quote, and an escape is never smaller than the character it stands for.
-/

namespace Reshape.Json

/-- A size of characters in which no escape is smaller than what it stands for. -/
structure Sizing (size : Char → Nat) : Prop where
  pos : ∀ c, 1 ≤ size c
  le : ∀ c, size c ≤ 4
  ascii : ∀ c, c.toNat < 128 → size c = 1

theorem sizing_one : Sizing fun _ => 1 := ⟨by simp, by simp, by simp⟩

theorem sizing_utf8Size : Sizing Char.utf8Size where
  pos c := c.utf8Size_pos
  le c := c.utf8Size_le_four
  ascii c h := by
    have hValue : c.val ≤ 127 := UInt32.le_iff_toNat_le.mpr (Nat.le_of_lt_succ h)
    exact if_pos hValue

def total (size : Char → Nat) : List Char → Nat
  | [] => 0
  | c :: rest => size c + total size rest

variable {size : Char → Nat}

@[simp]
theorem total_cons (c : Char) (s : List Char) : total size (c :: s) = size c + total size s := rfl

@[simp]
theorem total_one (s : List Char) : total (fun _ => 1) s = s.length := by
  induction s with
  | nil => rfl
  | cons c rest ih => simp [ih, Nat.add_comm]

@[simp]
theorem total_utf8Size (s : List Char) : total Char.utf8Size s = Text.byteCount s := by
  induction s with
  | nil => rfl
  | cons c rest ih =>
    rw [total_cons, ih]
    rfl

@[simp]
theorem total_append (s t : List Char) : total size (s ++ t) = total size s + total size t := by
  induction s with
  | nil => exact (Nat.zero_add _).symm
  | cons c rest ih => simp [ih, Nat.add_assoc]

theorem total_mono {s t : List Char} (h : s <:+: t) : total size s ≤ total size t := by
  obtain ⟨before, behind, rfl⟩ := h
  simp
  omega

theorem Sizing.length_le (hSize : Sizing size) (s : List Char) : s.length ≤ total size s := by
  induction s with
  | nil => exact Nat.le_refl 0
  | cons c rest ih =>
    have hc := hSize.pos c
    rw [total_cons, List.length_cons]
    omega

theorem reads_readHex (s : List Char) : Reads s (readHex s) fun taken _ => 4 ≤ taken.length := by
  unfold readHex
  split
  · rename_i a b c d rest
    split
    · refine Reads.behind [a, b, c, d] (reads_ok rest ?_)
      exact Nat.le_refl 4
    · exact reads_error _
  · split <;> exact reads_error _

theorem reads_readLowSurrogate (high : Nat) (s : List Char) :
    Reads s (readLowSurrogate high s) fun _ _ => True := by
  unfold readLowSurrogate
  split
  · exact reads_failHere _ _
  · rename_i digits
    refine Reads.behind ['\\', 'u'] ?_
    refine (reads_readHex digits).bind fun _ low rest _ => ?_
    simp only
    split
    · exact reads_failHere _ _
    · exact reads_ok rest trivial
  · exact reads_failHere _ _
  · exact reads_failNext _ _
  · exact reads_failNext _ _

theorem reads_readUnicodeEscape (s : List Char) :
    Reads s (readUnicodeEscape s) fun taken _ => 4 ≤ taken.length := by
  unfold readUnicodeEscape
  refine (reads_readHex s).bind fun taken n rest hTaken => ?_
  simp only
  split
  · exact reads_failHere _ _
  · split
    · exact reads_ok rest (by simpa using hTaken)
    · refine (reads_readLowSurrogate n rest).mono fun behind _ _ => ?_
      rw [List.length_append]
      omega

theorem size_eq_one_of_escapeLetter (hSize : Sizing size) {c e : Char}
    (h : escapeLetters.lookup c = some e) : size e = 1 := by
  obtain ⟨_, _, hSplit, _⟩ := List.lookup_eq_some_iff.mp h
  have hMember : (c, e) ∈ escapeLetters := by simp [hSplit]
  have hAscii : ∀ pair ∈ escapeLetters, pair.2.toNat < 128 := by decide
  exact hSize.ascii e (hAscii (c, e) hMember)

/-- No escape is smaller than its character. -/
theorem reads_readEscape (hSize : Sizing size) (s : List Char) :
    Reads s (readEscape s) fun taken c => size c ≤ total size taken := by
  unfold readEscape
  split
  · exact reads_failHere _ _
  · rename_i rest
    refine Reads.behind ['u'] ?_
    refine (reads_readUnicodeEscape rest).mono fun taken c hTaken => ?_
    have hc := hSize.le c
    have hLength := hSize.length_le taken
    rw [total_append]
    omega
  · rename_i c rest _
    split
    · rename_i e hLetter
      refine Reads.behind [c] (reads_ok rest ?_)
      rw [size_eq_one_of_escapeLetter hSize hLetter]
      exact hSize.length_le [c]
    · exact reads_failNext _ _

/-- A string is smaller than its text, which has a closing quote. -/
theorem reads_readStringWithin (hSize : Sizing size) (bound : Nat) (s : List Char) :
    Reads s (readStringWithin bound s) fun taken text => total size text < total size taken := by
  fun_induction readStringWithin bound s with
  | case1 s => exact reads_failHere _ _
  | case2 => exact reads_failHere _ _
  | case3 bound rest =>
    refine Reads.behind ['"'] (reads_ok rest ?_)
    exact hSize.pos '"'
  | case4 bound rest ih =>
    refine Reads.behind ['\\'] ?_
    refine (reads_readEscape hSize rest).bind fun escape c rest hEscape => ?_
    refine (ih rest).bind fun taken text rest hText => reads_ok rest ?_
    simp only [total_append, total_cons, List.append_nil]
    omega
  | case5 bound c rest hQuote hBackslash hControl => exact reads_failHere _ _
  | case6 bound c rest hQuote hBackslash hControl ih =>
    refine Reads.behind [c] ?_
    refine ih.bind fun taken text rest hText => reads_ok rest ?_
    simp only [total_append, total_cons, List.append_nil]
    omega

theorem reads_readString (hSize : Sizing size) (s : List Char) :
    Reads s (readString s) fun taken text => total size text.toList < total size taken := by
  unfold readString
  refine (reads_readStringWithin hSize _ s).bind fun taken text rest hText => reads_ok rest ?_
  simpa using hText

end Reshape.Json
