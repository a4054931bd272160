import Reshape.Value.Access
import Reshape.Value.Arrangement

/-!
# Well-formed values

Building objects, looking into values, adding and arranging them never makes a number that is not
well formed, nor an object that repeats a key.
-/

namespace Reshape

section Lookup

variable {κ α : Type} [DecidableEq κ] {pairs : List (κ × α)} {key : κ} {x : α}

theorem mem_of_lookup (h : pairs.lookup key = some x) : (key, x) ∈ pairs := by
  obtain ⟨before, after, rfl, _⟩ := List.lookup_eq_some_iff.mp h
  exact List.mem_append_right before List.mem_cons_self

/-- Where keys are distinct, looking one up finds whatever it is paired with. -/
theorem lookup_eq_some_iff_mem (h : (pairs.map (·.1)).Nodup) :
    pairs.lookup key = some x ↔ (key, x) ∈ pairs := by
  refine ⟨mem_of_lookup, fun hMember => ?_⟩
  obtain ⟨before, after, rfl⟩ := List.append_of_mem hMember
  refine List.lookup_eq_some_iff.mpr ⟨before, after, rfl, fun pair hPair => bne_iff_ne.mpr ?_⟩
  rw [List.map_append, List.nodup_append] at h
  exact (h.2.2 _ (List.mem_map_of_mem hPair) key List.mem_cons_self).symm

theorem mem_keys_of_lookup (h : pairs.lookup key = some x) : key ∈ pairs.map (·.1) :=
  List.mem_map_of_mem (mem_of_lookup h)

theorem exists_lookup_of_mem_keys (h : key ∈ pairs.map (·.1)) : ∃ x, pairs.lookup key = some x := by
  rw [← Option.isSome_iff_exists, List.lookup_isSome_iff]
  obtain ⟨pair, hPair, rfl⟩ := List.mem_map.mp h
  exact ⟨pair, hPair, beq_self_eq_true _⟩

end Lookup

namespace Value

/-! ## Objects -/

theorem mem_insertField {key : String} {value : Value} {fields : List (String × Value)}
    {field : String × Value} (h : field ∈ insertField key value fields) :
    field = (key, value) ∨ field ∈ fields := by
  induction fields with
  | nil => exact .inl (List.mem_singleton.mp h)
  | cons first rest ih =>
    obtain ⟨k, v⟩ := first
    unfold insertField at h
    split at h
    · rename_i hKey
      rw [← hKey]
      exact (List.mem_cons.mp h).imp id (List.mem_cons_of_mem _)
    · rcases List.mem_cons.mp h with rfl | h
      · exact .inr List.mem_cons_self
      · exact (ih h).imp id (List.mem_cons_of_mem _)

theorem mem_foldl_insertField {entries fields : List (String × Value)} {field : String × Value}
    (h : field ∈ entries.foldl (fun fields entry => insertField entry.1 entry.2 fields) fields) :
    field ∈ fields ∨ field ∈ entries := by
  induction entries generalizing fields with
  | nil => exact .inl h
  | cons entry rest ih =>
    rcases ih h with hField | hField
    · rcases mem_insertField hField with rfl | hField
      · exact .inr List.mem_cons_self
      · exact .inl hField
    · exact .inr (List.mem_cons_of_mem entry hField)

theorem mem_of_mem_fieldsOf {entries : List (String × Value)} {field : String × Value}
    (h : field ∈ fieldsOf entries) : field ∈ entries :=
  (mem_foldl_insertField h).resolve_left List.not_mem_nil

theorem nodup_insertField {key : String} {value : Value} {fields : List (String × Value)}
    (h : (fields.map (·.1)).Nodup) : ((insertField key value fields).map (·.1)).Nodup := by
  by_cases hKey : key ∈ fields.map (·.1)
  · simpa [hKey]
  · have hNew : ∀ other ∈ fields.map (·.1), other ≠ key := by
      rintro _ hOther rfl
      exact hKey hOther
    simpa [hKey, List.nodup_append, h] using hNew

theorem wellFormed_insertField {key : String} {value : Value} {fields : List (String × Value)}
    (hFields : (object fields).WellFormed) (hValue : value.WellFormed) :
    (object (insertField key value fields)).WellFormed := by
  obtain ⟨hKeys, hValues⟩ := wellFormed_object.mp hFields
  refine wellFormed_object.mpr ⟨nodup_insertField hKeys, fun field hField => ?_⟩
  rcases mem_insertField hField with rfl | hField
  · exact hValue
  · exact hValues field hField

theorem wellFormed_fieldsOf {entries : List (String × Value)}
    (h : ∀ entry ∈ entries, entry.2.WellFormed) : (object (fieldsOf entries)).WellFormed := by
  have hFold (fields : List (String × Value)) (hFields : (object fields).WellFormed) :
      (object (entries.foldl (fun fields entry => insertField entry.1 entry.2 fields)
        fields)).WellFormed := by
    induction entries generalizing fields with
    | nil => exact hFields
    | cons entry rest ih =>
      obtain ⟨hEntry, hRest⟩ := List.forall_mem_cons.mp h
      exact ih hRest _ (wellFormed_insertField hFields hEntry)
  exact hFold [] (by simp)

/-! ## Numbers -/

theorem wellFormed_ofBinary64 (x : Binary64) : (ofBinary64 x).WellFormed := by
  unfold ofBinary64 Number.ofBinary64?
  split
  · rename_i n hNumber
    split at hNumber
    · rename_i hWhole
      cases hNumber
      simp only [Bool.and_eq_true, decide_eq_true_eq] at hWhole
      have hBound : x.truncate < 2 ^ 64 := Int.lt_trans hWhole.2 (by decide)
      exact ⟨hWhole.1.2, hBound⟩
    · split at hNumber
      · rename_i hFinite
        cases hNumber
        exact hFinite
      · cases hNumber
  · trivial

/-- Whatever is added: an integer sum fits, and a sum of doubles is finite or becomes null. -/
theorem wellFormed_add (a b : Value) : (a.add b).WellFormed := by
  unfold add
  split
  · trivial
  · split
    · rename_i n hSum
      unfold integerSum? at hSum
      split at hSum
      · split at hSum
        · rename_i hFits
          cases hSum
          have hBound := Int.lt_trans hFits.2 (by decide : (2 : Int) ^ 63 < 2 ^ 64)
          exact ⟨hFits.1, hBound⟩
        · cases hSum
      · cases hSum
    · exact wellFormed_ofBinary64 _

theorem ofBinary64_eq_null_iff {x : Binary64} : ofBinary64 x = null ↔ x.isFinite = false := by
  cases hFinite : x.isFinite with
  | false => simp [ofBinary64, Number.ofBinary64?, Binary64.isWhole, hFinite]
  | true =>
    unfold ofBinary64 Number.ofBinary64?
    split
    · simp
    · rename_i hNone
      split at hNone <;> cases hNone

theorem add_eq_null_iff {a b : Value} (ha : a.isTextual = false) (hb : b.isTextual = false) :
    a.add b = null ↔
      integerSum? a b = none ∧ (a.toBinary64.add b.toBinary64).isFinite = false := by
  rw [add, ha, hb]
  cases hSum : integerSum? a b with
  | none => simp [ofBinary64_eq_null_iff]
  | some n => simp

/-! ## Access -/

theorem mem_of_elementAt? {items : List Value} {index : Binary64} {v : Value}
    (h : elementAt? items index = some v) : v ∈ items := by
  simp only [elementAt?, Option.ite_none_left_eq_some] at h
  exact List.mem_of_getElem? h.2.2

theorem wellFormed_of_lookup? {key base v : Value} (hBase : base.WellFormed)
    (h : lookup? key base = some v) : v.WellFormed := by
  cases base with
  | array items =>
    obtain ⟨index, _, hElement⟩ := Option.bind_eq_some_iff.mp h
    exact wellFormed_array.mp hBase v (mem_of_elementAt? hElement)
  | object fields =>
    exact (wellFormed_object.mp hBase).2 (key.text, v) (mem_of_lookup h)
  | _ => cases h

theorem wellFormed_lookup?_getD (key : Value) {base : Value} (h : base.WellFormed) :
    ((lookup? key base).getD null).WellFormed := by
  cases hLookup : lookup? key base with
  | none => trivial
  | some v => exact wellFormed_of_lookup? h hLookup

theorem wellFormed_get {base : Value} (h : base.WellFormed) (key : Value) :
    (base.get key).WellFormed := by
  unfold get
  split
  · trivial
  · exact wellFormed_lookup?_getD key h

theorem wellFormed_lookupOrNull (key : Value) {v : Value} (h : v.WellFormed) :
    (lookupOrNull key v).WellFormed := by
  unfold lookupOrNull
  split
  · exact wellFormed_lookup?_getD key h
  · trivial

theorem wellFormed_of_spreadElement {key v w : Value} (h : v.WellFormed)
    (hMember : w ∈ spreadElement key v) : w.WellFormed := by
  unfold spreadElement at hMember
  split at hMember
  · obtain ⟨inner, hInner, rfl⟩ := List.mem_map.mp hMember
    exact wellFormed_lookupOrNull key (wellFormed_array.mp h inner hInner)
  · rw [List.mem_singleton.mp hMember]
    exact wellFormed_lookupOrNull key h

theorem wellFormed_getSpread {base : Value} (h : base.WellFormed) (key : Value) :
    (base.getSpread key).WellFormed := by
  unfold getSpread
  split
  · split
    · refine wellFormed_array.mpr fun w hMember => ?_
      obtain ⟨v, hItem, hMember⟩ := List.mem_flatMap.mp hMember
      exact wellFormed_of_spreadElement (wellFormed_array.mp h v hItem) hMember
    · exact wellFormed_get h key
  · exact wellFormed_get h key

mutual

theorem wellFormed_of_search {key : String} {w : Value} (v : Value) (h : v.WellFormed)
    (hMember : w ∈ v.search key) : w.WellFormed := by
  cases v with
  | array items => exact wellFormed_of_searchItems items h hMember
  | object fields => exact wellFormed_of_searchFields fields h.2 hMember
  | _ => cases hMember

theorem wellFormed_of_searchItems {key : String} {w : Value} (items : List Value)
    (h : ItemsWellFormed items) (hMember : w ∈ searchItems key items) : w.WellFormed := by
  cases items with
  | nil => cases hMember
  | cons v rest =>
    rcases List.mem_append.mp hMember with hMember | hMember
    · exact wellFormed_of_search v h.1 hMember
    · exact wellFormed_of_searchItems rest h.2 hMember

theorem wellFormed_of_searchFields {key : String} {w : Value} (fields : List (String × Value))
    (h : FieldsWellFormed fields) (hMember : w ∈ searchFields key fields) : w.WellFormed := by
  match fields with
  | [] => cases hMember
  | (k, v) :: rest =>
    rcases List.mem_append.mp hMember with hMember | hMember
    · split at hMember
      · rw [List.mem_singleton.mp hMember]
        exact h.1
      · exact wellFormed_of_search v h.1 hMember
    · exact wellFormed_of_searchFields rest h.2 hMember

end

/-! ## Arrangements -/

theorem dedupAfter_sublist (seen items : List Value) : (dedupAfter seen items).Sublist items := by
  induction items generalizing seen with
  | nil => exact List.Sublist.refl []
  | cons v rest ih =>
    unfold dedupAfter
    split
    · exact (ih seen).cons v
    · exact (ih (seen ++ [v])).cons_cons v

theorem mem_of_sortByKeys {keys items : List Value} {v : Value}
    (h : v ∈ sortByKeys keys items) : v ∈ items := by
  obtain ⟨⟨key, other⟩, hPair, rfl⟩ := List.mem_map.mp h
  exact (List.of_mem_zip ((stableSort_perm _ _).mem_iff.mp hPair)).2

/-! ## Strings -/

@[simp]
theorem keys_mapFieldStrings (f : String → Value) (fields : List (String × Value)) :
    (mapFieldStrings f fields).map (·.1) = fields.map (·.1) := by
  induction fields with
  | nil => rfl
  | cons field rest ih => simp [mapFieldStrings, ih]

mutual

theorem wellFormed_mapStrings {f : String → Value} (hf : ∀ s, (f s).WellFormed) (v : Value)
    (h : v.WellFormed) : (v.mapStrings f).WellFormed := by
  cases v with
  | string s => exact hf s
  | array items => exact itemsWellFormed_mapStrings hf items h
  | object fields =>
    exact ⟨by simpa using h.1, fieldsWellFormed_mapStrings hf fields h.2⟩
  | _ => exact h

theorem itemsWellFormed_mapStrings {f : String → Value} (hf : ∀ s, (f s).WellFormed)
    (items : List Value) (h : ItemsWellFormed items) :
    ItemsWellFormed (mapItemStrings f items) := by
  cases items with
  | nil => trivial
  | cons v rest =>
    exact ⟨wellFormed_mapStrings hf v h.1, itemsWellFormed_mapStrings hf rest h.2⟩

theorem fieldsWellFormed_mapStrings {f : String → Value} (hf : ∀ s, (f s).WellFormed)
    (fields : List (String × Value)) (h : FieldsWellFormed fields) :
    FieldsWellFormed (mapFieldStrings f fields) := by
  match fields with
  | [] => trivial
  | (k, v) :: rest =>
    exact ⟨wellFormed_mapStrings hf v h.1, fieldsWellFormed_mapStrings hf rest h.2⟩

end

end Value

end Reshape
