import Mathlib.Data.List.Lex
import Reshape.Document.Fault
import Reshape.Proofs.Except
import Reshape.Yaml.Node

/-!
# Compound keys

A node has a value unless the key of some mapping inside of it is compound: a sequence, a mapping or
a tagged node. The fault is then the path of the mapping with the first such key.
-/

namespace Reshape.Yaml.Node

/-- What holds of a node if it holds of its items, of the values of its entries, of its content. -/
@[elab_as_elim]
theorem induction {motive : Node → Prop} (null : motive null) (bool : ∀ b, motive (bool b))
    (number : ∀ n, motive (number n)) (string : ∀ s, motive (string s))
    (sequence : ∀ items, (∀ item ∈ items, motive item) → motive (sequence items))
    (mapping : ∀ entries, (∀ entry ∈ entries, motive entry.2) → motive (mapping entries))
    (tagged : ∀ tag content, motive content → motive (tagged tag content)) (node : Node) :
    motive node := by
  refine @Node.rec motive (fun items => ∀ item ∈ items, motive item)
    (fun entries => ∀ entry ∈ entries, motive entry.2) (fun entry => motive entry.2)
    null bool number string sequence mapping tagged (by simp) ?_ (by simp) ?_ (fun _ _ _ h => h)
    node
  · intro item rest hItem hRest
    exact List.forall_mem_cons.mpr ⟨hItem, hRest⟩
  · intro entry rest hEntry hRest
    exact List.forall_mem_cons.mpr ⟨hEntry, hRest⟩

def IsCompound : Node → Prop
  | sequence _ => True
  | mapping _ => True
  | tagged _ _ => True
  | _ => False

@[simp]
theorem keyText?_eq_none_iff {key : Node} : keyText? key = none ↔ key.IsCompound := by
  cases key <;> simp [keyText?, IsCompound]

/-- The step to the value under a key; nothing is reached over a key without a text. -/
def stepOver (key : Node) : Reshape.Step := .field ((keyText? key).getD "")

/--
A key stands in a node at an address, in the mapping that a path leads to. An address counts items
and entries on the way down; a tag is no step. In the order of the document the addresses are
ordered lexically: a key comes before what is in its value, and this before the next entry.
-/
inductive KeyAt : Node → List Nat → Path → Node → Prop where
  | here {entries : List (Node × Node)} {i : Nat} {key value : Node} :
    entries[i]? = some (key, value) → KeyAt (mapping entries) [i] [] key
  | value {entries : List (Node × Node)} {i : Nat} {key value inner : Node} {address : List Nat}
    {path : Path} : entries[i]? = some (key, value) → KeyAt value address path inner →
    KeyAt (mapping entries) (i :: address) (stepOver key :: path) inner
  | item {items : List Node} {i : Nat} {item key : Node} {address : List Nat} {path : Path} :
    items[i]? = some item → KeyAt item address path key →
    KeyAt (sequence items) (i :: address) (.item i :: path) key
  | content {tag : String} {content key : Node} {address : List Nat} {path : Path} :
    KeyAt content address path key → KeyAt (tagged tag content) address path key

theorem KeyAt.ne_nil {node key : Node} {address : List Nat} {path : Path}
    (h : KeyAt node address path key) : address ≠ [] := by
  induction h with
  | here | value | item => exact List.cons_ne_nil _ _
  | content _ ih => exact ih

theorem KeyAt.unique {node key key' : Node} {address : List Nat} {path path' : Path}
    (h : KeyAt node address path key) (h' : KeyAt node address path' key') :
    path = path' ∧ key = key' := by
  induction h generalizing path' key' with
  | here hEntry =>
    cases h' with
    | here hEntry' =>
      obtain ⟨rfl, rfl⟩ := Prod.mk.inj (Option.some.inj (hEntry.symm.trans hEntry'))
      exact ⟨rfl, rfl⟩
    | value _ hInner => exact absurd rfl hInner.ne_nil
  | value hEntry hInner ih =>
    cases h' with
    | here _ => exact absurd rfl hInner.ne_nil
    | value hEntry' hInner' =>
      obtain ⟨rfl, rfl⟩ := Prod.mk.inj (Option.some.inj (hEntry.symm.trans hEntry'))
      obtain ⟨rfl, rfl⟩ := ih hInner'
      exact ⟨rfl, rfl⟩
  | item hItem _ ih =>
    cases h' with
    | item hItem' hInner' =>
      obtain rfl := Option.some.inj (hItem.symm.trans hItem')
      obtain ⟨rfl, rfl⟩ := ih hInner'
      exact ⟨rfl, rfl⟩
  | content _ ih =>
    cases h' with
    | content hInner' => exact ih hInner'

/-- The first compound key in a node stands in the mapping at the path. -/
def FirstCompound (node : Node) (path : Path) : Prop :=
  ∃ address key, KeyAt node address path key ∧ key.IsCompound ∧
    ∀ earlier path' other, KeyAt node earlier path' other → earlier < address → ¬ other.IsCompound

theorem FirstCompound.unique {node : Node} {path path' : Path} (h : FirstCompound node path)
    (h' : FirstCompound node path') : path = path' := by
  obtain ⟨address, key, hKey, hCompound, hFirst⟩ := h
  obtain ⟨address', key', hKey', hCompound', hFirst'⟩ := h'
  rcases lt_trichotomy address address' with hLt | rfl | hLt
  · exact absurd hCompound (hFirst' _ _ _ hKey hLt)
  · exact (hKey.unique hKey').1
  · exact absurd hCompound' (hFirst _ _ _ hKey' hLt)

/-! ## Where reading ends -/

theorem toItems_ok {path : Path} {index : Nat} {items : List Node} {vs : List Value}
    (h : toItems path index items = .ok vs) {i : Nat} {item : Node}
    (hItem : items[i]? = some item) : ∃ v, toValue (path ++ [.item (index + i)]) item = .ok v := by
  induction items generalizing index i vs with
  | nil => cases hItem
  | cons first rest ih =>
    obtain ⟨v, hFirst, hTail⟩ := bind_eq_ok.mp h
    obtain ⟨others, hRest, _⟩ := bind_eq_ok.mp hTail
    cases i with
    | zero =>
      cases hItem
      exact ⟨v, hFirst⟩
    | succ i =>
      rw [Nat.add_succ, ← Nat.succ_add]
      exact ih hRest hItem

theorem toFields_ok {path : Path} {entries : List (Node × Node)} {fields : List (String × Value)}
    (h : toFields path entries = .ok fields) {i : Nat} {key value : Node}
    (hEntry : entries[i]? = some (key, value)) :
    ¬ key.IsCompound ∧ ∃ v, toValue (path ++ [stepOver key]) value = .ok v := by
  induction entries generalizing i fields with
  | nil => cases hEntry
  | cons first rest ih =>
    rw [toFields] at h
    split at h
    · cases h
    · rename_i text hText
      obtain ⟨v, hFirst, hTail⟩ := bind_eq_ok.mp h
      obtain ⟨others, hRest, _⟩ := bind_eq_ok.mp hTail
      cases i with
      | zero =>
        cases hEntry
        rw [← keyText?_eq_none_iff, stepOver, hText]
        exact ⟨by simp, v, hFirst⟩
      | succ i => exact ih hRest hEntry

theorem toItems_error {path p : Path} {index : Nat} {items : List Node}
    (h : toItems path index items = .error p) :
    ∃ i item, items[i]? = some item ∧ toValue (path ++ [.item (index + i)]) item = .error p ∧
      ∀ j other, items[j]? = some other → j < i →
        ∃ v, toValue (path ++ [.item (index + j)]) other = .ok v := by
  induction items generalizing index with
  | nil => cases h
  | cons first rest ih =>
    rw [toItems] at h
    cases hFirst : toValue (path ++ [.item index]) first with
    | error p' =>
      rw [hFirst] at h
      cases h
      exact ⟨0, first, rfl, hFirst, fun j _ _ hLt => absurd hLt (Nat.not_lt_zero j)⟩
    | ok v =>
      rw [hFirst] at h
      obtain ⟨i, item, hItem, hError, hBefore⟩ := ih (bind_ok_eq_error.mp h)
      rw [Nat.succ_add_eq_add_succ] at hError
      refine ⟨i + 1, item, hItem, hError, ?_⟩
      intro j other hOther hLt
      cases j with
      | zero =>
        cases hOther
        exact ⟨v, hFirst⟩
      | succ j =>
        obtain ⟨w, hValue⟩ := hBefore j other hOther (Nat.lt_of_succ_lt_succ hLt)
        rw [Nat.succ_add_eq_add_succ] at hValue
        exact ⟨w, hValue⟩

theorem toFields_error {path p : Path} {entries : List (Node × Node)}
    (h : toFields path entries = .error p) :
    ∃ i key value, entries[i]? = some (key, value) ∧
      (key.IsCompound ∧ p = path ∨
        ¬ key.IsCompound ∧ toValue (path ++ [stepOver key]) value = .error p) ∧
      ∀ (j : Nat) other w, entries[j]? = some (other, w) → j < i →
        ¬ other.IsCompound ∧ ∃ v, toValue (path ++ [stepOver other]) w = .ok v := by
  induction entries with
  | nil => cases h
  | cons first rest ih =>
    obtain ⟨key, value⟩ := first
    rw [toFields] at h
    split at h
    · rename_i hText
      cases h
      refine ⟨0, key, value, rfl, .inl ⟨keyText?_eq_none_iff.mp hText, rfl⟩, ?_⟩
      exact fun j _ _ _ hLt => absurd hLt (Nat.not_lt_zero j)
    · rename_i text hText
      have hScalar : ¬ key.IsCompound := by
        rw [← keyText?_eq_none_iff, hText]
        simp
      have hStep : stepOver key = .field text := by rw [stepOver, hText, Option.getD_some]
      cases hValue : toValue (path ++ [stepOver key]) value with
      | error p' =>
        rw [← hStep, hValue] at h
        cases h
        refine ⟨0, key, value, rfl, .inr ⟨hScalar, hValue⟩, ?_⟩
        exact fun j _ _ _ hLt => absurd hLt (Nat.not_lt_zero j)
      | ok v =>
        rw [← hStep, hValue] at h
        obtain ⟨i, key', value', hEntry, hError, hBefore⟩ := ih (bind_ok_eq_error.mp h)
        refine ⟨i + 1, key', value', hEntry, hError, ?_⟩
        intro j other w hOther hLt
        cases j with
        | zero =>
          cases hOther
          exact ⟨hScalar, v, hValue⟩
        | succ j => exact hBefore j other w hOther (Nat.lt_of_succ_lt_succ hLt)

theorem not_isCompound_of_toValue {node : Node} {path : Path} {v : Value}
    (h : node.toValue path = .ok v) {address : List Nat} {inner : Path} {key : Node}
    (hKey : KeyAt node address inner key) : ¬ key.IsCompound := by
  induction hKey generalizing path v with
  | here hEntry =>
    obtain ⟨fields, hFields, _⟩ := bind_eq_ok.mp h
    exact (toFields_ok hFields hEntry).1
  | value hEntry _ ih =>
    obtain ⟨fields, hFields, _⟩ := bind_eq_ok.mp h
    obtain ⟨_, w, hValue⟩ := toFields_ok hFields hEntry
    exact ih hValue
  | item hItem _ ih =>
    obtain ⟨items, hItems, _⟩ := bind_eq_ok.mp h
    obtain ⟨w, hValue⟩ := toItems_ok hItems hItem
    exact ih hValue
  | content _ ih => exact ih h

theorem firstCompound_of_error {node : Node} {path p : Path} (h : node.toValue path = .error p) :
    ∃ inner, p = path ++ inner ∧ FirstCompound node inner := by
  induction node using induction generalizing path p with
  | null | bool | number | string => cases h
  | sequence items ih =>
    obtain ⟨i, item, hItem, hError, hBefore⟩ := toItems_error (bind_ok_eq_error.mp h)
    obtain ⟨inner, rfl, address, key, hKey, hCompound, hFirst⟩ :=
      ih item (List.mem_of_getElem? hItem) hError
    refine ⟨.item i :: inner, by simp, i :: address, key, .item hItem hKey, hCompound, ?_⟩
    intro earlier path' other hOther hEarlier
    cases hOther with
    | item hItem' hInner =>
      rcases List.cons_lt_cons_iff.mp hEarlier with hLt | ⟨rfl, hLt⟩
      · obtain ⟨v, hValue⟩ := hBefore _ _ hItem' hLt
        exact not_isCompound_of_toValue hValue hInner
      · obtain rfl := Option.some.inj (hItem.symm.trans hItem')
        exact hFirst _ _ _ hInner hLt
  | mapping entries ih =>
    obtain ⟨i, key, value, hEntry, hError, hBefore⟩ := toFields_error (bind_ok_eq_error.mp h)
    rcases hError with ⟨hCompound, rfl⟩ | ⟨hScalar, hError⟩
    · refine ⟨[], (List.append_nil _).symm, [i], key, .here hEntry, hCompound, ?_⟩
      intro earlier path' other hOther hEarlier
      cases hOther with
      | here hEntry' =>
        rcases List.cons_lt_cons_iff.mp hEarlier with hLt | ⟨_, hLt⟩
        · exact (hBefore _ _ _ hEntry' hLt).1
        · exact absurd hLt (List.not_lt_nil _)
      | value hEntry' hInner =>
        rcases List.cons_lt_cons_iff.mp hEarlier with hLt | ⟨_, hLt⟩
        · obtain ⟨_, v, hValue⟩ := hBefore _ _ _ hEntry' hLt
          exact not_isCompound_of_toValue hValue hInner
        · exact absurd hLt (List.not_lt_nil _)
    · obtain ⟨inner, rfl, address, inside, hKey, hCompound, hFirst⟩ :=
        ih (key, value) (List.mem_of_getElem? hEntry) hError
      refine ⟨stepOver key :: inner, by simp, i :: address, inside, .value hEntry hKey, hCompound,
        ?_⟩
      intro earlier path' other hOther hEarlier
      cases hOther with
      | here hEntry' =>
        rcases List.cons_lt_cons_iff.mp hEarlier with hLt | ⟨rfl, _⟩
        · exact (hBefore _ _ _ hEntry' hLt).1
        · obtain ⟨rfl, _⟩ := Prod.mk.inj (Option.some.inj (hEntry.symm.trans hEntry'))
          exact hScalar
      | value hEntry' hInner =>
        rcases List.cons_lt_cons_iff.mp hEarlier with hLt | ⟨rfl, hLt⟩
        · obtain ⟨_, v, hValue⟩ := hBefore _ _ _ hEntry' hLt
          exact not_isCompound_of_toValue hValue hInner
        · obtain ⟨_, rfl⟩ := Prod.mk.inj (Option.some.inj (hEntry.symm.trans hEntry'))
          exact hFirst _ _ _ hInner hLt
  | tagged tag content ih =>
    obtain ⟨inner, rfl, address, key, hKey, hCompound, hFirst⟩ := ih h
    refine ⟨inner, rfl, address, key, .content hKey, hCompound, ?_⟩
    intro earlier path' other hOther hEarlier
    cases hOther with
    | content hInner => exact hFirst _ _ _ hInner hEarlier

theorem message_keyNotScalar (p : Path) : (Document.Fault.keyNotScalar p).message =
    "parse error: at $" ++ String.join (p.map Step.render) ++ ": mapping keys must be scalars" := by
  have hMessage : (Document.Fault.keyNotScalar p).message =
      "parse error: at " ++ p.render ++ ": mapping keys must be scalars" := rfl
  have hStart : "parse error: at $" = "parse error: at " ++ "$" := rfl
  rw [hMessage, Path.render_eq, hStart]
  simp only [String.append_assoc]

-- The key of the second entry of the inner mapping comes before the later key of the outer one.
example :
    let inner := mapping [(null, bool true), (number (.integer 1), mapping [(sequence [], null)])]
    let outer := mapping [(string "a", sequence [null, tagged "!t" inner]),
      (tagged "!t" (string "b"), null)]
    outer.toValue [] = .error [.field "a", .item 1, .field "1"] := by
  rfl

end Reshape.Yaml.Node
