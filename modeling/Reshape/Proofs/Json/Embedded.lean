import Reshape.Proofs.Json.WellFormed
import Reshape.Proofs.Value.Contents

/-!
# Unfolding strings that hold JSON

A string inside a value that is read is shorter than the text. So the way from a value to its items
and fields and from a string to what it holds comes to an end, and unfolding is the only function
that follows it. What it leaves are strings that hold no JSON, which it leaves alone a second time.
-/

namespace Reshape.Json

/-- The string is JSON text. -/
def IsText (s : String) : Prop := ∃ v, read s = .ok v

theorem not_isText_of_error {s : String} {fault : Fault} (h : read s = .error fault) :
    ¬ IsText s := by
  rintro ⟨v, hRead⟩
  rw [h] at hRead
  cases hRead

/-! ## Shorter strings -/

theorem inherited_smaller {size : Char → Nat} (hSize : Sizing size) :
    Inherited fun text v => ∀ s, .string s ∈ v.scalars → total size s.toList < total size text where
  widens _ _ _ h hInfix s hs := Nat.lt_of_lt_of_le (h s hs) (total_mono hInfix)
  null := by simp [Value.scalars]
  bool _ := by simp [Value.scalars]
  number _ _ := by simp [Value.scalars]
  string s := (reads_readString hSize s).mono fun _ _ h => by simpa [Value.scalars] using h
  array text items h s hs := by
    obtain ⟨v, hItem, hs⟩ := Value.mem_scalars_array.mp hs
    exact h v hItem s hs
  object text fields h s hs := by
    obtain ⟨field, hField, hs⟩ := Value.mem_scalars_object.mp hs
    exact h field (Value.mem_of_mem_fieldsOf hField) s hs

theorem length_lt_of_read {text s : String} {v : Value} (h : read text = .ok v)
    (hs : .string s ∈ v.scalars) : s.length < text.length := by
  simpa [String.length_toList] using (inherited_smaller sizing_one).of_read h s hs

theorem byteCount_lt_of_read {text s : String} {v : Value} (h : read text = .ok v)
    (hs : .string s ∈ v.scalars) : Text.byteCount s.toList < Text.byteCount text.toList := by
  simpa using (inherited_smaller sizing_utf8Size).of_read h s hs

/-! ## Unfolding -/

@[simp]
theorem unfoldWithin_empty (bound : Nat) : unfoldWithin bound "" = .string "" := by
  cases bound <;> rfl

/-- Every bound that the length of a string does not exceed is large enough. -/
theorem unfoldWithin_eq {m n : Nat} {s : String} (hm : s.length ≤ m) (hn : s.length ≤ n) :
    unfoldWithin m s = unfoldWithin n s := by
  induction m generalizing n s with
  | zero =>
    have hEmpty : s = "" := String.length_eq_zero_iff.mp (Nat.le_zero.mp hm)
    simp [hEmpty]
  | succ m ih =>
    cases n with
    | zero =>
      have hEmpty : s = "" := String.length_eq_zero_iff.mp (Nat.le_zero.mp hn)
      simp [hEmpty]
    | succ n =>
      unfold unfoldWithin
      cases hRead : read s with
      | error fault => rfl
      | ok v =>
        refine Value.mapStrings_congr v fun t ht => ?_
        have hShorter := length_lt_of_read hRead ht
        exact ih (by omega) (by omega)

theorem unfold_of_ok {s : String} {v : Value} (h : read s = .ok v) : unfold s = v.reparse := by
  have hUnfold : unfold s = unfoldWithin (s.length + 1) s := unfoldWithin_eq (by omega) (by omega)
  rw [hUnfold, unfoldWithin, h]
  refine Value.mapStrings_congr v fun t ht => unfoldWithin_eq ?_ (Nat.le_refl _)
  exact Nat.le_of_lt (length_lt_of_read h ht)

theorem unfold_of_error {s : String} {fault : Fault} (h : read s = .error fault) :
    unfold s = .string s := by
  have hUnfold : unfold s = unfoldWithin (s.length + 1) s := unfoldWithin_eq (by omega) (by omega)
  rw [hUnfold, unfoldWithin, h]

end Reshape.Json

namespace Reshape.Value

@[simp]
theorem reparse_array (items : List Value) : (array items).reparse = array (items.map reparse) :=
  mapStrings_array Json.unfold items

@[simp]
theorem reparse_object (fields : List (String × Value)) :
    (object fields).reparse = object (fields.map fun field => (field.1, field.2.reparse)) :=
  mapStrings_object Json.unfold fields

theorem reparse_string (s : String) :
    (string s).reparse =
      match Json.read s with
      | .ok v => v.reparse
      | .error _ => string s := by
  change Json.unfold s = _
  cases hRead : Json.read s with
  | ok v => exact Json.unfold_of_ok hRead
  | error fault => exact Json.unfold_of_error hRead

/-- `v` stands directly inside a value, as an item, as a field or as what a string holds. -/
inductive Inside : Value → Value → Prop
  | item {v : Value} {items : List Value} (h : v ∈ items) : Inside v (array items)
  | field {field : String × Value} {fields : List (String × Value)} (h : field ∈ fields) :
    Inside field.2 (object fields)
  | text {v : Value} {s : String} (h : Json.read s = .ok v) : Inside v (string s)

theorem acc_inside_of_strings (v : Value) (h : ∀ s, string s ∈ v.scalars → Acc Inside (string s)) :
    Acc Inside v := by
  induction v using induction with
  | null | bool | number => exact Acc.intro _ fun _ hInside => by cases hInside
  | string s => exact h s List.mem_cons_self
  | array items ih =>
    refine Acc.intro _ fun v hInside => ?_
    cases hInside with
    | item hItem => exact ih v hItem fun s hs => h s (mem_scalars_array.mpr ⟨v, hItem, hs⟩)
  | object fields ih =>
    refine Acc.intro _ fun v hInside => ?_
    cases hInside with
    | @field field _ hField =>
      exact ih field hField fun s hs => h s (mem_scalars_object.mpr ⟨field, hField, hs⟩)

/-- What a string holds may have any shape, but its strings are shorter. -/
theorem acc_inside_string (s : String) : Acc Inside (string s) := by
  induction hLength : s.length using Nat.strongRecOn generalizing s with
  | _ n ih =>
    refine Acc.intro _ fun v hInside => ?_
    cases hInside with
    | text hRead =>
      refine acc_inside_of_strings v fun t ht => ih t.length ?_ t rfl
      rw [← hLength]
      exact Json.length_lt_of_read hRead ht

theorem wellFounded_inside : WellFounded Inside :=
  ⟨fun v => acc_inside_of_strings v fun s _ => acc_inside_string s⟩

/-- One step of the recursion: `f` is applied to what stands directly inside. -/
def reparseStep (f : Value → Value) : Value → Value
  | string s =>
    match Json.read s with
    | .ok v => f v
    | .error _ => string s
  | array items => array (items.map f)
  | object fields => object (fields.map fun field => (field.1, f field.2))
  | v => v

theorem reparse_eq_reparseStep (v : Value) : v.reparse = reparseStep reparse v := by
  cases v with
  | string s => exact reparse_string s
  | array | object => simp [reparseStep]
  | null | bool | number => rfl

theorem reparseStep_congr {f g : Value → Value} {v : Value} (h : ∀ w, Inside w v → f w = g w) :
    reparseStep f v = reparseStep g v := by
  cases v with
  | string s =>
    cases hRead : Json.read s with
    | ok v => simp only [reparseStep, hRead, h v (.text hRead)]
    | error fault => simp only [reparseStep, hRead]
  | array items => exact congrArg array (List.map_congr_left fun v hv => h v (.item hv))
  | object fields =>
    refine congrArg object (List.map_congr_left fun field hField => ?_)
    rw [h field.2 (.field hField)]
  | null | bool | number => rfl

theorem eq_reparse_iff (f : Value → Value) : f = reparse ↔ ∀ v, f v = reparseStep f v := by
  constructor
  · rintro rfl
    exact reparse_eq_reparseStep
  · intro hStep
    funext v
    induction v using wellFounded_inside.induction with
    | _ v ih => rw [hStep, reparse_eq_reparseStep, reparseStep_congr ih]

theorem not_isText_of_mem_reparse {s : String} (v : Value)
    (hs : string s ∈ v.reparse.scalars) : ¬ Json.IsText s := by
  induction v using wellFounded_inside.induction with
  | _ v ih =>
    cases v with
    | null | bool | number => cases List.mem_singleton.mp hs
    | string t =>
      rw [reparse_string] at hs
      cases hRead : Json.read t with
      | ok v =>
        rw [hRead] at hs
        exact ih v (.text hRead) hs
      | error fault =>
        rw [hRead] at hs
        cases List.mem_singleton.mp hs
        exact Json.not_isText_of_error hRead
    | array items =>
      rw [reparse_array] at hs
      obtain ⟨w, hItem, hs⟩ := mem_scalars_array.mp hs
      obtain ⟨v, hv, rfl⟩ := List.mem_map.mp hItem
      exact ih v (.item hv) hs
    | object fields =>
      rw [reparse_object] at hs
      obtain ⟨w, hField, hs⟩ := mem_scalars_object.mp hs
      obtain ⟨field, hf, rfl⟩ := List.mem_map.mp hField
      exact ih field.2 (.field hf) hs

theorem reparse_eq_self {v : Value} (h : ∀ s, string s ∈ v.scalars → ¬ Json.IsText s) :
    v.reparse = v := by
  refine mapStrings_eq_self fun s hs => ?_
  cases hRead : Json.read s with
  | ok w => exact absurd ⟨w, hRead⟩ (h s hs)
  | error fault => exact Json.unfold_of_error hRead

/-- One pass over a value leaves no string that holds JSON, so a second pass finds nothing. -/
theorem reparse_fixed_point (v : Value) :
    (∀ s, string s ∈ v.reparse.scalars → ¬ Json.IsText s) ∧ v.reparse.reparse = v.reparse := by
  have hStrings : ∀ s, string s ∈ v.reparse.scalars → ¬ Json.IsText s := by
    intro s hs
    exact not_isText_of_mem_reparse v hs
  constructor
  · exact hStrings
  · exact reparse_eq_self hStrings

/--
The recursion descends from values to what stands directly inside them, and ends: the strings in
what a string holds are shorter, in characters and in bytes. So it has a single solution.
-/
theorem reparse_descends :
    (∀ text v, Json.read text = .ok v → ∀ s, string s ∈ v.scalars →
      s.length < text.length ∧ Text.byteCount s.toList < Text.byteCount text.toList) ∧
    WellFounded Inside ∧ ∀ f : Value → Value, f = reparse ↔ ∀ v, f v = reparseStep f v := by
  refine ⟨?_, wellFounded_inside, eq_reparse_iff⟩
  intro text v hRead s hs
  constructor
  · exact Json.length_lt_of_read hRead hs
  · exact Json.byteCount_lt_of_read hRead hs

/-- What the text says by an escape of six characters is JSON text again. -/
theorem reparse_descends_escape :
    Json.read "\"\\u0031\"" = .ok (string "1") ∧ string "1" ∈ (string "1").scalars ∧
      "1".length < "\"\\u0031\"".length ∧
      Text.byteCount "1".toList < Text.byteCount "\"\\u0031\"".toList := by
  have hRead : Json.read "\"\\u0031\"" = .ok (string "1") := rfl
  have hString : string "1" ∈ (string "1").scalars := List.mem_cons_self
  exact ⟨hRead, hString, reparse_descends.1 _ _ hRead _ hString⟩

end Reshape.Value
