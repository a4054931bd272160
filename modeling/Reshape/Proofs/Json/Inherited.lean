import Reshape.Proofs.Json.Reads

/-!
# Properties that values get from their text

A property of a value and the text that it was taken from holds of whatever is read, if scalars
have it, containers pass it on and no text around takes it away. The induction over the readers is
done here once.
-/

namespace Reshape.Json

variable {s : List Char} {result : Except Failure (α × List Char)} {P : List Char → α → Prop}

theorem widens_forall {P : List Char → α → Prop} (hP : Widens P) :
    Widens fun text (items : List α) => ∀ a ∈ items, P text a :=
  fun taken text _ h hInfix a ha => hP taken text a (h a ha) hInfix

/-- Of a first item and the others, each has `P` with the text that it was taken from. -/
theorem forall_mem_cons_of_widens {P : List Char → α → Prop} (hP : Widens P)
    {taken behind : List Char} {a : α} {others : List α} (ha : P taken a)
    (hOthers : ∀ b ∈ others, P behind b) : ∀ b ∈ a :: others, P (taken ++ behind) b := by
  intro b hb
  rcases List.mem_cons.mp hb with rfl | hb
  · exact hP taken _ b ha (List.prefix_append taken behind).isInfix
  · exact hP behind _ b (hOthers b hb) (List.suffix_append taken behind).isInfix

/-- The rest of a text whose beginning, apart from space, is known. -/
theorem Reads.of_skipSpace (hP : Widens P) (before : List Char) {rest : List Char}
    (hSkip : skipSpace s = before ++ rest) (h : Reads rest result P) : Reads s result P :=
  h.of_suffix hP (suffix_of_skipSpace hSkip)

/-- A property that scalars have, that containers pass on and that no text around takes away. -/
structure Inherited (P : List Char → Value → Prop) : Prop where
  widens : Widens P
  null : P [] .null
  bool : ∀ b, P [] (.bool b)
  number : ∀ n : Number, n.WellFormed → P [] (.number n)
  string : ∀ s, Reads s (readString s) fun taken t => P taken (.string t)
  array : ∀ text items, (∀ v ∈ items, P text v) → P text (.array items)
  object : ∀ text fields, (∀ field ∈ fields, P text field.2) →
    P text (.object (Value.fieldsOf fields))

namespace Inherited

variable {P : List Char → Value → Prop} {element : Step Value}

theorem widens_field (hP : Inherited P) :
    Widens fun text (field : String × Value) => P text field.2 :=
  fun taken text _ h hInfix => hP.widens taken text _ h hInfix

theorem reads_items (hP : Inherited P) (hElement : ∀ s, Reads s (element s) P) (bound : Nat)
    (s : List Char) :
    Reads s (readItems element bound s) fun text items => ∀ v ∈ items, P text v := by
  have hItems := widens_forall hP.widens
  induction bound generalizing s with
  | zero => exact reads_failNext _ _
  | succ bound ih =>
    unfold readItems
    split
    · exact reads_failNext _ _
    · rename_i rest hClose
      exact (reads_ok rest (by simp)).of_skipSpace hItems [']'] hClose
    · rename_i rest hComma
      refine Reads.of_skipSpace hItems [','] hComma ?_
      split
      · exact reads_failNext _ _
      · exact reads_failNext _ _
      · refine Reads.of_suffix hItems (skipSpace_suffix rest) ?_
        refine (hElement _).bind fun taken v rest hItem => ?_
        refine (ih rest).bind fun behind items rest hRest => reads_ok rest ?_
        rw [List.append_nil]
        exact forall_mem_cons_of_widens hP.widens hItem hRest
    · exact reads_failNext _ _

theorem reads_array (hP : Inherited P) (hElement : ∀ s, Reads s (element s) P) (s : List Char) :
    Reads s (readArray element s) P := by
  unfold readArray
  split
  · exact reads_failNext _ _
  · rename_i rest hClose
    exact (reads_ok rest (hP.array [] [] (by simp))).of_skipSpace hP.widens [']'] hClose
  · refine Reads.of_suffix hP.widens (skipSpace_suffix s) ?_
    refine (hElement _).bind fun taken v rest hItem => ?_
    refine (hP.reads_items hElement (rest.length + 1) rest).bind
      fun behind items rest hRest => reads_ok rest (hP.array _ _ ?_)
    rw [List.append_nil]
    exact forall_mem_cons_of_widens hP.widens hItem hRest

theorem reads_field (hP : Inherited P) (hElement : ∀ s, Reads s (element s) P) (s : List Char) :
    Reads s (readField element s) fun text field => P text field.2 := by
  have hKey : Reads s (readString s) fun _ _ => True := (hP.string s).mono fun _ _ _ => trivial
  unfold readField
  refine hKey.bind fun before key rest _ => ?_
  refine Reads.mono ?_ fun taken field h =>
    hP.widens_field taken _ field h (List.suffix_append before taken).isInfix
  simp only
  split
  · exact reads_failNext _ _
  · rename_i tail hColon
    refine Reads.of_skipSpace hP.widens_field [':'] hColon ?_
    refine (hElement tail).bind fun taken v rest hValue => reads_ok rest ?_
    rwa [List.append_nil]
  · exact reads_failNext _ _

theorem reads_fields (hP : Inherited P) (hElement : ∀ s, Reads s (element s) P) (bound : Nat)
    (s : List Char) :
    Reads s (readFields element bound s) fun text fields => ∀ field ∈ fields, P text field.2 := by
  have hFields := widens_forall hP.widens_field
  induction bound generalizing s with
  | zero => exact reads_failNext _ _
  | succ bound ih =>
    unfold readFields
    split
    · exact reads_failNext _ _
    · rename_i rest hClose
      exact (reads_ok rest (by simp)).of_skipSpace hFields ['\x7d'] hClose
    · rename_i rest hComma
      refine Reads.of_skipSpace hFields [','] hComma ?_
      split
      · exact reads_failNext _ _
      · exact reads_failNext _ _
      · rename_i tail hQuote
        refine Reads.of_skipSpace hFields ['"'] hQuote ?_
        refine (hP.reads_field hElement tail).bind fun taken field rest hFirst => ?_
        refine (ih rest).bind fun behind fields rest hRest => reads_ok rest ?_
        rw [List.append_nil]
        exact forall_mem_cons_of_widens hP.widens_field hFirst hRest
      · exact reads_failNext _ _
    · exact reads_failNext _ _

theorem reads_object (hP : Inherited P) (hElement : ∀ s, Reads s (element s) P) (s : List Char) :
    Reads s (readObject element s) P := by
  unfold readObject
  split
  · exact reads_failNext _ _
  · rename_i rest hClose
    exact (reads_ok rest (hP.object [] [] (by simp))).of_skipSpace hP.widens ['\x7d'] hClose
  · rename_i tail hQuote
    refine Reads.of_skipSpace hP.widens ['"'] hQuote ?_
    refine (hP.reads_field hElement tail).bind fun taken field rest hFirst => ?_
    refine (hP.reads_fields hElement (rest.length + 1) rest).bind
      fun behind fields rest hRest => reads_ok rest (hP.object _ _ ?_)
    rw [List.append_nil]
    exact forall_mem_cons_of_widens hP.widens_field hFirst hRest
  · exact reads_failNext _ _

theorem reads_number (hP : Inherited P) (negative : Bool) (s : List Char) :
    Reads s (readNumber negative s) P := by
  refine (reads_readNumber negative s).mono fun taken v hNumber => ?_
  obtain ⟨n, hn, rfl⟩ := hNumber
  exact hP.widens [] taken _ (hP.number n hn) List.nil_infix

theorem reads_with (hP : Inherited P) {array object : Step Value}
    (hArray : ∀ s, Reads s (array s) P) (hObject : ∀ s, Reads s (object s) P) (s : List Char) :
    Reads s (readWith array object s) P := by
  unfold readWith
  split
  · exact reads_failNext _ _
  · rename_i hSkip
    exact (reads_readWord hP.widens hP.null _ _).of_skipSpace hP.widens ['n'] hSkip
  · rename_i hSkip
    exact (reads_readWord hP.widens (hP.bool true) _ _).of_skipSpace hP.widens ['t'] hSkip
  · rename_i hSkip
    exact (reads_readWord hP.widens (hP.bool false) _ _).of_skipSpace hP.widens ['f'] hSkip
  · rename_i hSkip
    exact (hP.reads_number _ _).of_skipSpace hP.widens ['-'] hSkip
  · rename_i rest hSkip
    refine Reads.of_skipSpace hP.widens ['"'] hSkip ?_
    refine (hP.string rest).bind fun taken text rest hText => reads_ok rest ?_
    rwa [List.append_nil]
  · rename_i hSkip
    exact (hArray _).of_skipSpace hP.widens ['['] hSkip
  · rename_i hSkip
    exact (hObject _).of_skipSpace hP.widens ['\x7b'] hSkip
  · rename_i hSkip
    split
    · exact (hP.reads_number _ _).of_skipSpace hP.widens [] hSkip
    · exact reads_failNext _ _

theorem reads_value (hP : Inherited P) (depth : Nat) (s : List Char) :
    Reads s (readValue depth s) P := by
  induction depth generalizing s with
  | zero => exact hP.reads_with (fun _ => reads_failHere _ _) (fun _ => reads_failHere _ _) s
  | succ depth ih => exact hP.reads_with (hP.reads_array ih) (hP.reads_object ih) s

/-- Whatever is read from a text has the property together with the text. -/
theorem of_read (hP : Inherited P) {text : String} {v : Value} (h : read text = .ok v) :
    P text.toList v := by
  obtain ⟨⟨w, rest⟩, hValue, hEnd⟩ := bind_eq_ok.mp (readText_of_read h)
  obtain ⟨taken, hSplit, hw⟩ := hP.reads_value depthLimit text.toList w rest hValue
  simp only at hEnd
  split at hEnd <;> cases hEnd
  rw [hSplit]
  exact hP.widens taken _ _ hw (List.prefix_append taken rest).isInfix

end Inherited

end Reshape.Json
