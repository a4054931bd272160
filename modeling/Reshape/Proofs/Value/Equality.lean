import Mathlib.Data.List.Nodup
import Mathlib.Data.List.Perm.Subperm
import Reshape.Proofs.Binary64.Integer
import Reshape.Proofs.Value.Contents
import Reshape.Proofs.Value.WellFormed
import Reshape.Value.Comparison

/-!
# Equality of values

Equality is sameness but for two numbers, which are compared as doubles. Both are equivalence
relations on well-formed values, since these hold neither NaN nor a key twice.
-/

namespace Reshape

namespace Binary64

variable {x y z : Binary64}

theorem isNaN_of_isFinite (h : x.isFinite = true) : x.isNaN = false := by
  have hBound : x.magnitude < infinityMagnitude := of_decide_eq_true h
  exact decide_eq_false (by omega)

theorem equal_iff : x.equal y = true ↔
    x.isNaN = false ∧ y.isNaN = false ∧ (x = y ∨ x.isZero = true ∧ y.isZero = true) := by
  simp [equal, and_assoc]

theorem equal_refl (h : x.isNaN = false) : x.equal x = true := equal_iff.mpr ⟨h, h, .inl rfl⟩

theorem equal_trans (h : x.equal y = true) (h' : y.equal z = true) : x.equal z = true := by
  obtain ⟨hx, hy, hxy⟩ := equal_iff.mp h
  obtain ⟨_, hz, hyz⟩ := equal_iff.mp h'
  refine equal_iff.mpr ⟨hx, hz, ?_⟩
  rcases hxy with rfl | ⟨hxZero, hyZero⟩
  · exact hyz
  · rcases hyz with rfl | ⟨_, hzZero⟩
    · exact .inr ⟨hxZero, hyZero⟩
    · exact .inr ⟨hxZero, hzZero⟩

end Binary64

namespace Number

variable {k m n : Number}

/-- The numbers have one value, in whichever form they are held. -/
def SameValue (m n : Number) : Prop := m.toBinary64.equal n.toBinary64 = true

/-- The numbers are both doubles, or they are the same integer. -/
inductive SameForm : Number → Number → Prop
  | integer (n : Int) : SameForm (.integer n) (.integer n)
  | double (x y : Binary64) : SameForm (.double x) (.double y)

theorem sameValue_refl (h : n.WellFormed) : n.SameValue n := by
  apply Binary64.equal_refl
  cases n with
  | integer n => exact Binary64.isNaN_ofInt n
  | double x => exact Binary64.isNaN_of_isFinite h

theorem same_iff : m.same n = true ↔ m.SameValue n ∧ m.SameForm n := by
  constructor
  · intro h
    cases m with
    | integer m =>
      cases n with
      | integer n =>
        obtain rfl : m = n := beq_iff_eq.mp h
        exact ⟨Binary64.equal_refl (Binary64.isNaN_ofInt m), .integer m⟩
      | double y => cases h
    | double x =>
      cases n with
      | integer n => cases h
      | double y => exact ⟨h, .double x y⟩
  · rintro ⟨hValue, hForm⟩
    cases hForm with
    | integer n => exact beq_self_eq_true n
    | double x y => exact hValue

theorem same_refl (h : n.WellFormed) : n.same n = true := by
  refine same_iff.mpr ⟨sameValue_refl h, ?_⟩
  cases n with
  | integer n => exact .integer n
  | double x => exact .double x x

theorem same_symm (h : m.same n = true) : n.same m = true := by
  obtain ⟨hValue, hForm⟩ := same_iff.mp h
  refine same_iff.mpr ⟨(Binary64.equal_comm _ _).trans hValue, ?_⟩
  cases hForm with
  | integer n => exact .integer n
  | double x y => exact .double y x

theorem same_trans (h : k.same m = true) (h' : m.same n = true) : k.same n = true := by
  obtain ⟨hValue, hForm⟩ := same_iff.mp h
  obtain ⟨hValue', hForm'⟩ := same_iff.mp h'
  refine same_iff.mpr ⟨Binary64.equal_trans hValue hValue', ?_⟩
  cases hForm with
  | integer n => exact hForm'
  | double x y =>
    cases hForm' with
    | double _ z => exact .double x z

end Number

namespace Value

/-! ## Sameness of containers -/

theorem same_array_iff {items others : List Value} :
    same (array items) (array others) = true ↔ items.length = others.length ∧
      ∀ (i : Nat) (v w : Value), items[i]? = some v → others[i]? = some w → same v w = true := by
  rw [same]
  induction items generalizing others with
  | nil => cases others <;> simp [sameItems]
  | cons v rest ih =>
    cases others with
    | nil => simp [sameItems]
    | cons w others =>
      rw [sameItems, Bool.and_eq_true, ih]
      constructor
      · rintro ⟨hFirst, hLength, hRest⟩
        refine ⟨congrArg Nat.succ hLength, fun i v' w' hv hw => ?_⟩
        cases i with
        | zero =>
          cases hv
          cases hw
          exact hFirst
        | succ i => exact hRest i v' w' hv hw
      · rintro ⟨hLength, hItems⟩
        exact ⟨hItems 0 v w rfl rfl, Nat.succ.inj hLength, fun i => hItems (i + 1)⟩

theorem fieldsIn_iff {others fields : List (String × Value)} :
    fieldsIn others fields = true ↔
      ∀ field ∈ fields, ∃ w, others.lookup field.1 = some w ∧ same field.2 w = true := by
  induction fields with
  | nil => simp [fieldsIn]
  | cons field rest ih =>
    rw [fieldsIn, Bool.and_eq_true, ih, List.forall_mem_cons]
    refine and_congr_left fun _ => ?_
    cases others.lookup field.1 <;> simp

/-- Objects that have as many fields, each of which the other one has, have the same keys. -/
theorem same_object_iff {fields others : List (String × Value)} (h : (fields.map (·.1)).Nodup)
    (h' : (others.map (·.1)).Nodup) :
    same (object fields) (object others) = true ↔
      (∀ key, key ∈ fields.map (·.1) ↔ key ∈ others.map (·.1)) ∧
      ∀ key v w, fields.lookup key = some v → others.lookup key = some w → same v w = true := by
  rw [same, Bool.and_eq_true, beq_iff_eq, fieldsIn_iff]
  constructor
  · rintro ⟨hLength, hFields⟩
    have hSubset : fields.map (·.1) ⊆ others.map (·.1) := by
      intro key hKey
      obtain ⟨field, hField, rfl⟩ := List.mem_map.mp hKey
      obtain ⟨w, hLookup, _⟩ := hFields field hField
      exact mem_keys_of_lookup hLookup
    have hPerm : (fields.map (·.1)).Perm (others.map (·.1)) :=
      (List.subperm_of_subset h hSubset).perm_of_length_le (by simp [hLength])
    refine ⟨fun key => hPerm.mem_iff, fun key v w hv hw => ?_⟩
    obtain ⟨w', hLookup, hSame⟩ := hFields (key, v) (mem_of_lookup hv)
    obtain rfl : w' = w := Option.some.inj (hLookup.symm.trans hw)
    exact hSame
  · rintro ⟨hKeys, hValues⟩
    have hPerm := (List.perm_ext_iff_of_nodup h h').mpr hKeys
    refine ⟨by simpa using hPerm.length_eq, fun field hField => ?_⟩
    have hKey : field.1 ∈ others.map (·.1) := (hKeys field.1).mp (List.mem_map_of_mem hField)
    obtain ⟨w, hLookup⟩ := exists_lookup_of_mem_keys hKey
    exact ⟨w, hLookup, hValues _ _ w ((lookup_eq_some_iff_mem h).mpr hField) hLookup⟩

/-! ## Values that agree -/

/-- The values agree but for their numbers, and the numbers at the same places are related. -/
inductive Alike (R : Number → Number → Prop) : Value → Value → Prop
  | null : Alike R null null
  | bool (b : Bool) : Alike R (bool b) (bool b)
  | number {m n : Number} (h : R m n) : Alike R (number m) (number n)
  | string (s : String) : Alike R (string s) (string s)
  | array {items others : List Value} (hLength : items.length = others.length)
    (h : ∀ (i : Nat) (v w : Value), items[i]? = some v → others[i]? = some w → Alike R v w) :
    Alike R (array items) (array others)
  | object {fields others : List (String × Value)}
    (hKeys : ∀ key, key ∈ fields.map (·.1) ↔ key ∈ others.map (·.1))
    (h : ∀ key v w, fields.lookup key = some v → others.lookup key = some w → Alike R v w) :
    Alike R (object fields) (object others)

namespace Alike

variable {R : Number → Number → Prop} {u v w : Value}

theorem refl (hR : ∀ n : Number, n.WellFormed → R n n) (h : v.WellFormed) : Alike R v v := by
  induction v using induction with
  | null => exact .null
  | bool b => exact .bool b
  | number n => exact .number (hR n h)
  | string s => exact .string s
  | array items ih =>
    refine .array rfl fun i v w hv hw => ?_
    obtain rfl : v = w := Option.some.inj (hv.symm.trans hw)
    have hMember := List.mem_of_getElem? hv
    exact ih v hMember (wellFormed_array.mp h v hMember)
  | object fields ih =>
    refine .object (fun _ => Iff.rfl) fun key v w hv hw => ?_
    obtain rfl : v = w := Option.some.inj (hv.symm.trans hw)
    have hMember := mem_of_lookup hv
    exact ih _ hMember ((wellFormed_object.mp h).2 _ hMember)

theorem symm (hR : ∀ m n, R m n → R n m) (h : Alike R v w) : Alike R w v := by
  induction h with
  | null => exact .null
  | bool b => exact .bool b
  | number h => exact .number (hR _ _ h)
  | string s => exact .string s
  | array hLength _ ih => exact .array hLength.symm fun i w v hw hv => ih i v w hv hw
  | object hKeys _ ih =>
    exact .object (fun key => (hKeys key).symm) fun key w v hw hv => ih key v w hv hw

theorem trans (hR : ∀ k m n, R k m → R m n → R k n) (h : Alike R u v) (h' : Alike R v w) :
    Alike R u w := by
  induction h generalizing w with
  | null => exact h'
  | bool b => exact h'
  | number h =>
    cases h' with
    | number h' => exact .number (hR _ _ _ h h')
  | string s => exact h'
  | @array items others hLength _ ih =>
    cases h' with
    | array hLength' h' =>
      refine .array (hLength.trans hLength') fun i u w hu hw => ?_
      obtain ⟨hIndex, _⟩ := List.getElem?_eq_some_iff.mp hu
      have hv : others[i]? = some others[i] := List.getElem?_eq_getElem (hLength ▸ hIndex)
      exact ih i u _ hu hv (h' i _ w hv hw)
  | object hKeys _ ih =>
    cases h' with
    | object hKeys' h' =>
      refine .object (fun key => (hKeys key).trans (hKeys' key)) fun key u w hu hw => ?_
      obtain ⟨v, hv⟩ := exists_lookup_of_mem_keys ((hKeys key).mp (mem_keys_of_lookup hu))
      exact ih key u v hu hv (h' key v w hv hw)

end Alike

theorem alike_of_same {v w : Value} (hv : v.WellFormed) (hw : w.WellFormed)
    (h : same v w = true) : Alike (fun m n => m.same n = true) v w := by
  induction v using induction generalizing w with
  | null =>
    cases w with
    | null => exact .null
    | _ => cases h
  | bool b =>
    cases w with
    | bool c =>
      obtain rfl : b = c := beq_iff_eq.mp h
      exact .bool b
    | _ => cases h
  | number m =>
    cases w with
    | number n => exact .number h
    | _ => cases h
  | string s =>
    cases w with
    | string t =>
      obtain rfl : s = t := beq_iff_eq.mp h
      exact .string s
    | _ => cases h
  | array items ih =>
    cases w with
    | array others =>
      obtain ⟨hLength, hItems⟩ := same_array_iff.mp h
      refine .array hLength fun i v w hv' hw' => ?_
      have hMember := List.mem_of_getElem? hv'
      have hMember' := List.mem_of_getElem? hw'
      exact ih v hMember (wellFormed_array.mp hv v hMember) (wellFormed_array.mp hw w hMember')
        (hItems i v w hv' hw')
    | _ => cases h
  | object fields ih =>
    cases w with
    | object others =>
      obtain ⟨hNodup, hValues⟩ := wellFormed_object.mp hv
      obtain ⟨hNodup', hValues'⟩ := wellFormed_object.mp hw
      obtain ⟨hKeys, hSame⟩ := (same_object_iff hNodup hNodup').mp h
      refine .object hKeys fun key v w hv' hw' => ?_
      have hMember := mem_of_lookup hv'
      have hMember' := mem_of_lookup hw'
      exact ih _ hMember (hValues _ hMember) (hValues' _ hMember') (hSame key v w hv' hw')
    | _ => cases h

theorem same_of_alike {v w : Value} (h : Alike (fun m n => m.same n = true) v w)
    (hv : v.WellFormed) (hw : w.WellFormed) : same v w = true := by
  induction h with
  | null => rfl
  | bool b => exact beq_self_eq_true b
  | number h => exact h
  | string s => exact beq_self_eq_true s
  | array hLength _ ih =>
    refine same_array_iff.mpr ⟨hLength, fun i v w hv' hw' => ih i v w hv' hw' ?_ ?_⟩
    · exact wellFormed_array.mp hv v (List.mem_of_getElem? hv')
    · exact wellFormed_array.mp hw w (List.mem_of_getElem? hw')
  | object hKeys _ ih =>
    obtain ⟨hNodup, hValues⟩ := wellFormed_object.mp hv
    obtain ⟨hNodup', hValues'⟩ := wellFormed_object.mp hw
    refine (same_object_iff hNodup hNodup').mpr ⟨hKeys, fun key v w hv' hw' => ?_⟩
    exact ih key v w hv' hw' (hValues _ (mem_of_lookup hv')) (hValues' _ (mem_of_lookup hw'))

theorem same_iff_alike {v w : Value} (hv : v.WellFormed) (hw : w.WellFormed) :
    same v w = true ↔ Alike (fun m n => m.same n = true) v w :=
  ⟨alike_of_same hv hw, fun h => same_of_alike h hv hw⟩

/-! ## Equality is an equivalence -/

theorem equal_of_same {v w : Value} (h : same v w = true) : equal v w = true := by
  cases v with
  | number m =>
    cases w with
    | number n => exact (Number.same_iff.mp h).1
    | _ => cases h
  | _ => exact h

/-- Other than by sameness, only two numbers are equal. -/
theorem equal_iff {v w : Value} : equal v w = true ↔ same v w = true ∨
    ∃ m n, v = number m ∧ w = number n ∧ m.SameValue n := by
  constructor
  · intro h
    cases v with
    | number m =>
      cases w with
      | number n => exact .inr ⟨m, n, rfl, rfl, h⟩
      | _ => exact .inl h
    | _ => exact .inl h
  · rintro (h | ⟨m, n, rfl, rfl, h⟩)
    · exact equal_of_same h
    · exact h

theorem exists_number_of_equal {m : Number} {w : Value} (h : equal (number m) w = true) :
    ∃ n, w = number n := by
  cases w with
  | number n => exact ⟨n, rfl⟩
  | _ => cases h

theorem equal_refl {v : Value} (h : v.WellFormed) : equal v v = true :=
  equal_of_same (same_of_alike (.refl (fun _ => Number.same_refl) h) h h)

theorem equal_symm {v w : Value} (hv : v.WellFormed) (hw : w.WellFormed) (h : equal v w = true) :
    equal w v = true := by
  rcases equal_iff.mp h with h | ⟨m, n, rfl, rfl, h⟩
  · have hNumbers (m n : Number) : m.same n = true → n.same m = true := Number.same_symm
    have hAlike := (alike_of_same hv hw h).symm hNumbers
    exact equal_of_same (same_of_alike hAlike hw hv)
  · exact (Binary64.equal_comm _ _).trans h

theorem equal_trans {u v w : Value} (hu : u.WellFormed) (hv : v.WellFormed) (hw : w.WellFormed)
    (h : equal u v = true) (h' : equal v w = true) : equal u w = true := by
  rcases equal_iff.mp h with hSame | ⟨k, m, rfl, rfl, hNumber⟩
  · rcases equal_iff.mp h' with hSame' | ⟨m, n, rfl, rfl, hNumber'⟩
    · have hNumbers (k m n : Number) : k.same m = true → m.same n = true → k.same n = true :=
        Number.same_trans
      have hAlike := (alike_of_same hu hv hSame).trans hNumbers (alike_of_same hv hw hSame')
      exact equal_of_same (same_of_alike hAlike hu hw)
    · obtain ⟨k, rfl⟩ := exists_number_of_equal (equal_symm hu hv h)
      exact Binary64.equal_trans h hNumber'
  · obtain ⟨n, rfl⟩ := exists_number_of_equal h'
    exact Binary64.equal_trans hNumber h'

/-- However deep the values are, in whatever order their fields come and in what form numbers are. -/
theorem equal_equivalence : Equivalence fun v w : { v : Value // v.WellFormed } =>
    equal v.1 w.1 = true where
  refl v := equal_refl v.2
  symm {v w} := equal_symm v.2 w.2
  trans {u v w} := equal_trans u.2 v.2 w.2

example :
    let n := number (.integer 1)
    equal (object [("a", n), ("b", array [n])]) (object [("b", array [n]), ("a", n)]) = true := by
  decide

end Value

end Reshape
