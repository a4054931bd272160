import Mathlib.Data.List.DropRight
import Reshape.Proofs.Json.Embedded
import Reshape.Proofs.Json.WrittenScalar

/-!
# Reading what was written

A value whose numbers are integers, and whose containers nest no deeper than the reader goes, is
read back from its text, whatever the width of the indentation.
-/

namespace Reshape.Json

/-! ## Containers -/

theorem skipSpace_append {space : List Char} (h : ∀ c ∈ space, isSpace c = true) (s : List Char) :
    skipSpace (space ++ s) = skipSpace s :=
  List.dropWhile_append_of_pos h

theorem isSpace_of_mem_lineBreak {width depth : Nat} {c : Char} (h : c ∈ lineBreak width depth) :
    isSpace c = true := by
  unfold lineBreak at h
  split at h
  · cases h
  · rcases List.mem_cons.mp h with rfl | h
    · rfl
    · rw [List.eq_of_mem_replicate h]
      rfl

@[simp]
theorem skipSpace_lineBreak (width depth : Nat) (s : List Char) :
    skipSpace (lineBreak width depth ++ s) = skipSpace s :=
  skipSpace_append (fun _ => isSpace_of_mem_lineBreak) s

/-- Behind a value comes a comma, a line break or the end of its container. -/
theorem delimited_lineBreak (width depth : Nat) {s : List Char} (h : Delimited s) :
    Delimited (lineBreak width depth ++ s) := by
  unfold lineBreak
  split
  · exact h
  · exact delimited_cons _ (by decide)

theorem delimited_itemsText (width depth : Nat) (items : List Value) {s : List Char}
    (h : Delimited s) : Delimited (itemsText width depth items ++ s) := by
  cases items with
  | nil => exact h
  | cons v rest => exact delimited_cons _ (by decide)

theorem delimited_fieldsText (width depth : Nat) (fields : List (String × Value)) {s : List Char}
    (h : Delimited s) : Delimited (fieldsText width depth fields ++ s) := by
  cases fields with
  | nil => exact h
  | cons field rest => exact delimited_cons _ (by decide)

/-- Space in front makes no difference, and nothing that is read begins with a closing bracket. -/
structure ReadsValues (element : Step Value) : Prop where
  space : ∀ s, element (skipSpace s) = element s
  opens : ∀ s r, element s = .ok r → ∃ c rest, skipSpace s = c :: rest ∧ c ≠ ']'

theorem readsValues_readWith (array object : Step Value) : ReadsValues (readWith array object) where
  space s := by
    have hTwice : skipSpace (skipSpace s) = skipSpace s := List.dropWhile_idempotent _ _
    unfold readWith
    rw [hTwice]
  opens s r h := by
    unfold readWith at h
    cases hSkip : skipSpace s with
    | nil =>
      rw [hSkip] at h
      cases h
    | cons c rest =>
      refine ⟨c, rest, rfl, ?_⟩
      rintro rfl
      rw [hSkip] at h
      cases h

theorem exists_readValue_eq (limit : Nat) :
    ∃ array object, readValue limit = readWith array object := by
  cases limit with
  | zero => exact ⟨_, _, rfl⟩
  | succ limit => exact ⟨_, _, rfl⟩

theorem readsValues_readValue (limit : Nat) : ReadsValues (readValue limit) := by
  obtain ⟨array, object, hLimit⟩ := exists_readValue_eq limit
  rw [hLimit]
  exact readsValues_readWith array object

variable {element : Step Value}

theorem ReadsValues.skip (hElement : ReadsValues element) {space : List Char}
    (h : ∀ c ∈ space, isSpace c = true) (s : List Char) : element (space ++ s) = element s := by
  rw [← hElement.space, skipSpace_append h, hElement.space]

theorem ReadsValues.lineBreak (hElement : ReadsValues element) (width depth : Nat)
    (s : List Char) : element (lineBreak width depth ++ s) = element s :=
  hElement.skip (fun _ => isSpace_of_mem_lineBreak) s

theorem readArray_of_ok (hElement : ReadsValues element) {s rest : List Char} {v : Value}
    (h : element s = .ok (v, rest)) :
    readArray element s =
      (readItems element (rest.length + 1) rest >>= fun (vs, rest) =>
        .ok (.array (v :: vs), rest)) := by
  obtain ⟨c, tail, hSkip, hc⟩ := hElement.opens s _ h
  rw [← hElement.space, hSkip] at h
  unfold readArray
  rw [hSkip]
  split
  · rename_i hNil
    cases hNil
  · rename_i hClose
    cases hClose
    exact absurd rfl hc
  · rw [h]
    rfl

theorem readItems_comma (hElement : ReadsValues element) (bound : Nat) {s rest : List Char}
    {v : Value} (h : element s = .ok (v, rest)) :
    readItems element (bound + 1) (',' :: s) =
      (readItems element bound rest >>= fun (vs, rest) => .ok (v :: vs, rest)) := by
  obtain ⟨c, tail, hSkip, hc⟩ := hElement.opens s _ h
  rw [← hElement.space, hSkip] at h
  have hComma : skipSpace (',' :: s) = ',' :: s := rfl
  rw [readItems, hComma]
  simp only
  rw [hSkip]
  split
  · rename_i hNil
    cases hNil
  · rename_i hClose
    cases hClose
    exact absurd rfl hc
  · rw [h]
    rfl

/-- The items behind the first one, up to the end of the array. -/
theorem readItems_itemsText (hElement : ReadsValues element) (width depth outer : Nat)
    {items : List Value} (hItems : ∀ v ∈ items, Recovers element (valueText width depth v) v)
    {bound : Nat} (hBound : items.length < bound) (rest : List Char) :
    readItems element bound
      (itemsText width depth items ++ (lineBreak width outer ++ ']' :: rest)) =
      .ok (items, rest) := by
  induction items generalizing bound with
  | nil =>
    cases bound with
    | zero => cases hBound
    | succ bound =>
      have hClose : skipSpace (']' :: rest) = ']' :: rest := rfl
      simp [itemsText, readItems, hClose]
  | cons v items ih =>
    obtain ⟨hFirst, hRest⟩ := List.forall_mem_cons.mp hItems
    cases bound with
    | zero => cases hBound
    | succ bound =>
      have hClose : Delimited (']' :: rest) := delimited_cons rest (by decide)
      have hBehind := delimited_itemsText width depth items (delimited_lineBreak width outer hClose)
      have hRead := hFirst _ hBehind
      rw [← hElement.lineBreak width depth] at hRead
      simp only [itemsText, List.cons_append, List.append_assoc]
      rw [readItems_comma hElement bound hRead, ih hRest (Nat.lt_of_succ_lt_succ hBound)]
      rfl

theorem length_le_itemsText (width depth : Nat) (items : List Value) :
    items.length ≤ (itemsText width depth items).length := by
  induction items with
  | nil => exact Nat.le_refl 0
  | cons v rest ih =>
    simp only [itemsText, List.cons_append, List.length_cons, List.length_append]
    omega

/-- An array is read behind its opening bracket. -/
theorem readArray_valueText (hElement : ReadsValues element) (width depth : Nat) {v : Value}
    {items : List Value}
    (hItems : ∀ w ∈ v :: items, Recovers element (valueText width (depth + 1) w) w)
    (rest : List Char) :
    readArray element (lineBreak width (depth + 1) ++ (valueText width (depth + 1) v ++
      (itemsText width (depth + 1) items ++ (lineBreak width depth ++ ']' :: rest)))) =
      .ok (.array (v :: items), rest) := by
  obtain ⟨hFirst, hRest⟩ := List.forall_mem_cons.mp hItems
  have hClose : Delimited (']' :: rest) := delimited_cons rest (by decide)
  have hRead := hFirst _ (delimited_itemsText width (depth + 1) items
    (delimited_lineBreak width depth hClose))
  rw [← hElement.lineBreak width (depth + 1)] at hRead
  have hLength := length_le_itemsText width (depth + 1) items
  rw [readArray_of_ok hElement hRead, readItems_itemsText hElement _ _ _ hRest]
  · rfl
  · rw [List.length_append]
    omega

/-- A field is read behind the opening quote of its key. -/
theorem readField_fieldText (hElement : ReadsValues element) (width : Nat) (key : String)
    {text rest : List Char} {v : Value} (h : element text = .ok (v, rest)) :
    readField element (key.toList.flatMap charText ++ '"' :: (colon width ++ text)) =
      .ok ((key, v), rest) := by
  have hColon : ∃ space, colon width ++ text = ':' :: (space ++ text) ∧
      ∀ c ∈ space, isSpace c = true := by
    unfold colon
    split
    · exact ⟨[], rfl, by simp⟩
    · exact ⟨[' '], rfl, by simp [isSpace]⟩
  obtain ⟨space, hColon, hSpace⟩ := hColon
  have hSkip : skipSpace (':' :: (space ++ text)) = ':' :: (space ++ text) := rfl
  rw [← hElement.skip hSpace] at h
  refine bind_eq_ok.mpr ⟨_, readString_flatMap key _, ?_⟩
  simp only [hColon, hSkip]
  exact bind_eq_ok.mpr ⟨_, h, rfl⟩

/-- The fields behind the first one, up to the end of the object. -/
theorem readFields_fieldsText (hElement : ReadsValues element) (width depth outer : Nat)
    {fields : List (String × Value)}
    (hFields : ∀ field ∈ fields, Recovers element (valueText width depth field.2) field.2)
    {bound : Nat} (hBound : fields.length < bound) (rest : List Char) :
    readFields element bound
      (fieldsText width depth fields ++ (lineBreak width outer ++ '\x7d' :: rest)) =
      .ok (fields, rest) := by
  induction fields generalizing bound with
  | nil =>
    cases bound with
    | zero => cases hBound
    | succ bound =>
      have hClose : skipSpace ('\x7d' :: rest) = '\x7d' :: rest := rfl
      simp [fieldsText, readFields, hClose]
  | cons field fields ih =>
    obtain ⟨key, v⟩ := field
    obtain ⟨hFirst, hRest⟩ := List.forall_mem_cons.mp hFields
    cases bound with
    | zero => cases hBound
    | succ bound =>
      have hClose : Delimited ('\x7d' :: rest) := delimited_cons rest (by decide)
      have hRead := readField_fieldText hElement width key (hFirst _
        (delimited_fieldsText width depth fields (delimited_lineBreak width outer hClose)))
      have hOthers := ih hRest (Nat.lt_of_succ_lt_succ hBound)
      have hComma (s : List Char) : skipSpace (',' :: s) = ',' :: s := rfl
      have hQuote (s : List Char) : skipSpace ('"' :: s) = '"' :: s := rfl
      simp only [fieldsText, stringText, List.cons_append, List.append_assoc, List.nil_append]
      rw [readFields, hComma]
      simp only [skipSpace_lineBreak, hQuote]
      exact bind_eq_ok.mpr ⟨_, hRead, bind_eq_ok.mpr ⟨_, hOthers, rfl⟩⟩

theorem length_le_fieldsText (width depth : Nat) (fields : List (String × Value)) :
    fields.length ≤ (fieldsText width depth fields).length := by
  induction fields with
  | nil => exact Nat.le_refl 0
  | cons field rest ih =>
    simp only [fieldsText, List.cons_append, List.length_cons, List.length_append]
    omega

/-- An object is read behind its opening brace. -/
theorem readObject_valueText (hElement : ReadsValues element) (width depth : Nat) {key : String}
    {v : Value} {fields : List (String × Value)}
    (hKeys : (((key, v) :: fields).map (·.1)).Nodup)
    (hFields : ∀ field ∈ (key, v) :: fields,
      Recovers element (valueText width (depth + 1) field.2) field.2) (rest : List Char) :
    readObject element (lineBreak width (depth + 1) ++ (stringText key ++ (colon width ++
      (valueText width (depth + 1) v ++ (fieldsText width (depth + 1) fields ++
        (lineBreak width depth ++ '\x7d' :: rest)))))) =
      .ok (.object ((key, v) :: fields), rest) := by
  obtain ⟨hFirst, hRest⟩ := List.forall_mem_cons.mp hFields
  have hClose : Delimited ('\x7d' :: rest) := delimited_cons rest (by decide)
  have hRead := readField_fieldText hElement width key (hFirst _
    (delimited_fieldsText width (depth + 1) fields (delimited_lineBreak width depth hClose)))
  have hLength := length_le_fieldsText width (depth + 1) fields
  have hQuote (s : List Char) : skipSpace ('"' :: s) = '"' :: s := rfl
  rw [readObject, skipSpace_lineBreak]
  simp only [stringText, List.cons_append, List.append_assoc, List.nil_append, hQuote]
  refine bind_eq_ok.mpr ⟨_, hRead, bind_eq_ok.mpr ⟨_,
    readFields_fieldsText hElement width (depth + 1) depth hRest ?_ rest, ?_⟩⟩
  · rw [List.length_append]
    omega
  · simp only [Value.fieldsOf_of_nodup hKeys]

/-! ## Values -/

/-- What a container reads of its items is read within the limit if the container is. -/
theorem recovers_valueText (width : Nat) (v : Value) (hWellFormed : v.WellFormed)
    (hIntegers : ∀ x, .number (.double x) ∉ v.scalars) {limit : Nat} (hNesting : v.nesting ≤ limit)
    (depth : Nat) : Recovers (readValue limit) (valueText width depth v) v := by
  induction v using Value.induction generalizing limit depth with
  | null => cases limit <;> exact fun _ _ => rfl
  | bool b => cases b <;> cases limit <;> exact fun _ _ => rfl
  | number n =>
    obtain ⟨array, object, hLimit⟩ := exists_readValue_eq limit
    cases n with
    | integer n =>
      rw [hLimit]
      exact recovers_signedDecimal array object hWellFormed
    | double x => exact absurd List.mem_cons_self (hIntegers x)
  | string s =>
    obtain ⟨array, object, hLimit⟩ := exists_readValue_eq limit
    intro rest hRest
    simp only [hLimit, valueText, stringText, List.cons_append, List.append_assoc, List.nil_append]
    exact bind_eq_ok.mpr ⟨_, readString_flatMap s rest, rfl⟩
  | array items ih =>
    cases limit with
    | zero => cases hNesting
    | succ limit =>
      have hItems (v : Value) (hv : v ∈ items) :
          Recovers (readValue limit) (valueText width (depth + 1) v) v := by
        refine ih v hv (Value.wellFormed_array.mp hWellFormed v hv) (fun x hx => ?_) ?_ (depth + 1)
        · exact hIntegers x (Value.mem_scalars_array.mpr ⟨v, hv, hx⟩)
        · have hLower := Value.nesting_lt_array hv
          omega
      intro rest hRest
      cases items with
      | nil => rfl
      | cons v items =>
        simp only [valueText, List.cons_append, List.append_assoc, List.nil_append]
        exact readArray_valueText (readsValues_readValue limit) width depth hItems rest
  | object fields ih =>
    cases limit with
    | zero => cases hNesting
    | succ limit =>
      obtain ⟨hKeys, hValues⟩ := Value.wellFormed_object.mp hWellFormed
      have hFields (field : String × Value) (hField : field ∈ fields) :
          Recovers (readValue limit) (valueText width (depth + 1) field.2) field.2 := by
        refine ih field hField (hValues field hField) (fun x hx => ?_) ?_ (depth + 1)
        · exact hIntegers x (Value.mem_scalars_object.mpr ⟨field, hField, hx⟩)
        · have hLower := Value.nesting_lt_object hField
          omega
      intro rest hRest
      cases fields with
      | nil => rfl
      | cons field fields =>
        simp only [valueText, List.cons_append, List.append_assoc, List.nil_append]
        exact readObject_valueText (readsValues_readValue limit) width depth hKeys hFields rest

theorem read_write (width : Nat) {v : Value} (hWellFormed : v.WellFormed)
    (hIntegers : ∀ x, .number (.double x) ∉ v.scalars) (hNesting : v.nesting ≤ depthLimit) :
    read (write width v) = .ok v := by
  have hRead := recovers_valueText width v hWellFormed hIntegers hNesting 0 [] delimited_nil
  have hText : readText (valueText width 0 v) = .ok v := by
    rw [List.append_nil] at hRead
    exact bind_eq_ok.mpr ⟨_, hRead, rfl⟩
  rw [read, write, String.toList_ofList, hText]

end Reshape.Json

namespace Reshape.Value

/--
A value is read back from its text, so unfolding the text unfolds the value: it gives the value
itself, if no string inside it holds JSON.
-/
theorem reparse_write {v : Value} (hWellFormed : v.WellFormed)
    (hIntegers : ∀ x, number (.double x) ∉ v.scalars) (hNesting : v.nesting ≤ 127)
    (width : Option Nat) :
    (string (Json.write (width.getD 0) v)).reparse = v.reparse ∧
      ((∀ s, string s ∈ v.scalars → ¬ Json.IsText s) →
        (string (Json.write (width.getD 0) v)).reparse = v) := by
  have hRead := Json.read_write (width.getD 0) hWellFormed hIntegers hNesting
  have hReparse : (string (Json.write (width.getD 0) v)).reparse = v.reparse := by
    rw [reparse_string, hRead]
  refine ⟨hReparse, fun hStrings => ?_⟩
  rw [hReparse, reparse_eq_self hStrings]

/-- Escapes, control characters, both ends of the integers and an empty object, indented by two. -/
theorem reparse_write_indented :
    let v : Value := object [("a\t\"", array [string "b\\\n\x01é", number (.integer (2 ^ 64 - 1)),
      number (.integer (-2 ^ 63)), object []]), ("", bool true)]
    v.WellFormed ∧ (∀ x, number (.double x) ∉ v.scalars) ∧ v.nesting ≤ 127 ∧
      (∀ s, string s ∈ v.scalars → ¬ Json.IsText s) ∧ (string (Json.write 2 v)).reparse = v := by
  intro v
  have hWellFormed : v.WellFormed := by
    simp [v]
  have hIntegers : ∀ x, number (.double x) ∉ v.scalars := by
    simp [v, scalars, itemScalars, fieldScalars]
  have hNesting : v.nesting ≤ 127 := by decide
  have hStrings : ∀ s, string s ∈ v.scalars → ¬ Json.IsText s := by
    intro s hs
    have hOnly : s = "b\\\n\x01é" := by simpa [v, scalars, itemScalars, fieldScalars] using hs
    rw [hOnly]
    exact Json.not_isText_of_error rfl
  exact ⟨hWellFormed, hIntegers, hNesting, hStrings,
    (reparse_write hWellFormed hIntegers hNesting (some 2)).2 hStrings⟩

end Reshape.Value
