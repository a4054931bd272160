import Reshape.Path
import Reshape.Value.Basic

/-!
# Walking through a template

What the compiler checks, in the order in which it does: texts that are expressions, some of them
keys, and arrays. The walk comes to exactly the places that a path leads to.
-/

namespace Reshape.Template

/-- A text is read as an expression where `names` are in scope; an array is checked by itself. -/
inductive Check where
  | text (names : List String) (text : String)
  | array (items : List Value)

/-- What is checked, and where. -/
structure Node where
  path : Path
  check : Check

def isComputed (key : String) : Bool :=
  match key.toList with
  | '.' :: _ => true
  | '$' :: _ => true
  | '(' :: _ => true
  | _ => false

/-- A key is checked, before its value and at the same place, if it is an expression. -/
def walkKey (names : List String) (path : Path) (key : String) : List Node :=
  if isComputed key then [⟨path, .text names key⟩] else []

mutual

/-- The checks of a template, in order; an array is checked before its items. -/
def walk (names : List String) (path : Path) : Value → List Node
  | .string text => [⟨path, .text names text⟩]
  | .array items => ⟨path, .array items⟩ :: walkTagged names path items
  | .object fields => walkFields names path fields
  | _ => []

def walkTagged (names : List String) (path : Path) : List Value → List Node
  | .string tag :: rest =>
    if tag = "literal" then walkItems names path 1 rest
    else if tag = "foreach" then walkForeach names path rest
    else []
  | _ => []

/-- The variable is in scope in the body alone. -/
def walkForeach (names : List String) (path : Path) : List Value → List Node
  | [source, .string name, body] =>
    walk names (path ++ [.item 1]) source ++ walk (name :: names) (path ++ [.item 3]) body
  | _ => []

def walkItems (names : List String) (path : Path) (index : Nat) : List Value → List Node
  | [] => []
  | v :: rest => walk names (path ++ [.item index]) v ++ walkItems names path (index + 1) rest

def walkFields (names : List String) (path : Path) : List (String × Value) → List Node
  | [] => []
  | (k, v) :: rest =>
    walkKey names (path ++ [.field k]) k ++
      (walk names (path ++ [.field k]) v ++ walkFields names path rest)

end

/-! ## Places -/

/--
The path leads from a value to a part of it. The first names are in scope at the value and the
second at the part, which are more if it is in the body of a foreach.
-/
inductive Leads : List String → Value → Path → List String → Value → Prop where
  | here (names : List String) (v : Value) : Leads names v [] names v
  | field {names inner : List String} {fields : List (String × Value)} {k : String} {v w : Value}
    {path : Path} : (k, v) ∈ fields → Leads names v path inner w →
    Leads names (.object fields) (.field k :: path) inner w
  | item {names inner : List String} {items : List Value} {index : Nat} {v w : Value}
    {path : Path} : items[index]? = some v → Leads names v path inner w →
    Leads names (.array (.string "literal" :: items)) (.item (index + 1) :: path) inner w
  | source {names inner : List String} {source w : Value} {path : Path} (name : String)
    (body : Value) : Leads names source path inner w →
    Leads names (.array [.string "foreach", source, .string name, body]) (.item 1 :: path) inner w
  | body {names inner : List String} {body w : Value} {path : Path} (source : Value)
    (name : String) : Leads (name :: names) body path inner w →
    Leads names (.array [.string "foreach", source, .string name, body]) (.item 3 :: path) inner w

/-- What is checked stands at the end of the path, or is an expression and the path's last key. -/
def Stands (names : List String) (v : Value) (path : Path) : Check → Prop
  | .text inner s =>
    Leads names v path inner (.string s) ∨
      isComputed s ∧ path.getLast? = some (.field s) ∧ ∃ w, Leads names v path inner w
  | .array items => ∃ inner, Leads names v path inner (.array items)

theorem Stands.step {names names' : List String} {v v' : Value} {path : Path} {check : Check}
    (h : Stands names v path check) (step : Step)
    (hStep : ∀ {path inner w}, Leads names v path inner w → Leads names' v' (step :: path) inner w) :
    Stands names' v' (step :: path) check := by
  cases check with
  | text inner s =>
    rcases h with h | ⟨hComputed, hKey, w, h⟩
    · exact .inl (hStep h)
    · refine .inr ⟨hComputed, ?_, w, hStep h⟩
      rw [List.getLast?_cons, hKey]
      rfl
  | array items =>
    obtain ⟨inner, h⟩ := h
    exact ⟨inner, hStep h⟩

/-- The paths of the nodes continue `path` to what is checked in `v`. -/
def Placed (names : List String) (v : Value) (path : Path) (nodes : List Node) : Prop :=
  ∀ node ∈ nodes, ∃ rest, node.path = path ++ rest ∧ Stands names v rest node.check

theorem placed_nil (names : List String) (v : Value) (path : Path) : Placed names v path [] := by
  simp [Placed]

theorem Placed.append {names : List String} {v : Value} {path : Path} {xs ys : List Node}
    (hx : Placed names v path xs) (hy : Placed names v path ys) :
    Placed names v path (xs ++ ys) :=
  List.forall_mem_append.mpr ⟨hx, hy⟩

theorem Placed.step {names names' : List String} {v v' : Value} {path : Path} {step : Step}
    {nodes : List Node} (h : Placed names v (path ++ [step]) nodes)
    (hStep : ∀ {path inner w}, Leads names v path inner w → Leads names' v' (step :: path) inner w) :
    Placed names' v' path nodes := by
  intro node hNode
  obtain ⟨rest, hPath, hStands⟩ := h node hNode
  refine ⟨step :: rest, ?_, hStands.step step hStep⟩
  rw [hPath, List.append_assoc]
  rfl

theorem placed_walkKey {names : List String} {fields : List (String × Value)} {k : String}
    {v : Value} (hField : (k, v) ∈ fields) (path : Path) :
    Placed names (.object fields) path (walkKey names (path ++ [.field k]) k) := by
  unfold walkKey
  split
  · rename_i hComputed
    intro node hNode
    rw [List.mem_singleton.mp hNode]
    exact ⟨[.field k], rfl, .inr ⟨hComputed, rfl, v, .field hField (.here names v)⟩⟩
  · exact placed_nil _ _ _

mutual

theorem placed_walk (names : List String) (path : Path) (v : Value) :
    Placed names v path (walk names path v) := by
  cases v with
  | array items =>
    rw [walk]
    refine List.forall_mem_cons.mpr ⟨?_, placed_walkTagged names path items⟩
    exact ⟨[], (List.append_nil path).symm, names, .here names _⟩
  | object fields =>
    rw [walk]
    exact placed_walkFields names path fields fields fun _ hField => hField
  | string s =>
    rw [walk]
    intro node hNode
    rw [List.mem_singleton.mp hNode]
    exact ⟨[], (List.append_nil path).symm, .inl (.here names _)⟩
  | _ => exact placed_nil _ _ _

theorem placed_walkTagged (names : List String) (path : Path) (items : List Value) :
    Placed names (.array items) path (walkTagged names path items) := by
  match items with
  | .string tag :: rest =>
    rw [walkTagged]
    split
    · rename_i hLiteral
      rw [hLiteral]
      exact placed_walkItems names path [] rest
    · split
      · rename_i hForeach
        rw [hForeach]
        exact placed_walkForeach names path rest
      · exact placed_nil _ _ _
  | [] | .null :: _ | .bool _ :: _ | .number _ :: _ | .array _ :: _ | .object _ :: _ =>
    exact placed_nil _ _ _

theorem placed_walkForeach (names : List String) (path : Path) (items : List Value) :
    Placed names (.array (.string "foreach" :: items)) path (walkForeach names path items) := by
  match items with
  | [source, .string name, body] =>
    rw [walkForeach]
    have hSource := placed_walk names (path ++ [.item 1]) source
    have hBody := placed_walk (name :: names) (path ++ [.item 3]) body
    exact (hSource.step (.source name body)).append (hBody.step (.body source name))
  | [_, .null, _] | [_, .bool _, _] | [_, .number _, _] | [_, .array _, _] | [_, .object _, _] =>
    exact placed_nil _ _ _
  | [] | [_] => exact placed_nil _ _ _
  | [_, v] | _ :: v :: _ :: _ :: _ => cases v <;> exact placed_nil _ _ _

theorem placed_walkItems (names : List String) (path : Path) (before items : List Value) :
    Placed names (.array (.string "literal" :: (before ++ items))) path
      (walkItems names path (before.length + 1) items) := by
  cases items with
  | nil => exact placed_nil _ _ _
  | cons v rest =>
    have hItem : (before ++ v :: rest)[before.length]? = some v := by simp
    have hRest := placed_walkItems names path (before ++ [v]) rest
    rw [List.append_assoc, List.length_append] at hRest
    rw [walkItems]
    exact ((placed_walk names _ v).step (.item hItem)).append hRest

theorem placed_walkFields (names : List String) (path : Path) (all fields : List (String × Value))
    (h : ∀ field ∈ fields, field ∈ all) :
    Placed names (.object all) path (walkFields names path fields) := by
  match fields with
  | [] => exact placed_nil _ _ _
  | (k, v) :: rest =>
    obtain ⟨hField, hRest⟩ := List.forall_mem_cons.mp h
    rw [walkFields]
    have hValue := (placed_walk names (path ++ [.field k]) v).step (.field hField)
    exact (placed_walkKey hField path).append
      (hValue.append (placed_walkFields names path all rest hRest))

end

theorem walk_subset_walkItems {names : List String} {items : List Value} {index : Nat} {v : Value}
    (h : items[index]? = some v) (path : Path) (first : Nat) :
    walk names (path ++ [.item (index + first)]) v ⊆ walkItems names path first items := by
  induction items generalizing first index with
  | nil => simp at h
  | cons head rest ih =>
    rw [walkItems]
    cases index with
    | zero =>
      obtain rfl : head = v := by simpa using h
      rw [Nat.zero_add]
      exact List.subset_append_left _ _
    | succ index =>
      have hIndex : rest[index]? = some v := by simpa using h
      rw [Nat.succ_add_eq_add_succ]
      exact List.Subset.trans (ih hIndex (first + 1)) (List.subset_append_right _ _)

theorem walk_subset_walkFields {names : List String} {fields : List (String × Value)} {k : String}
    {v : Value} (h : (k, v) ∈ fields) (path : Path) :
    walkKey names (path ++ [.field k]) k ++ walk names (path ++ [.field k]) v ⊆
      walkFields names path fields := by
  induction fields with
  | nil => cases h
  | cons field rest ih =>
    obtain ⟨key, value⟩ := field
    rw [walkFields, ← List.append_assoc]
    cases h with
    | head => exact List.subset_append_left _ _
    | tail _ hRest => exact List.Subset.trans (ih hRest) (List.subset_append_right _ _)

theorem Leads.walk_subset {names inner : List String} {v w : Value} {path : Path}
    (h : Leads names v path inner w) (front : Path) :
    walk inner (front ++ path) w ⊆ walk names front v := by
  induction h generalizing front with
  | here names v => rw [List.append_nil]; exact List.Subset.refl _
  | field hField _ ih =>
    rw [List.append_cons, walk]
    refine List.Subset.trans ?_ (walk_subset_walkFields hField front)
    exact List.Subset.trans (ih _) (List.subset_append_right _ _)
  | item hItem _ ih =>
    rw [List.append_cons, walk, walkTagged, if_pos rfl]
    refine List.Subset.trans ?_ (List.subset_cons_self _ _)
    exact List.Subset.trans (ih _) (walk_subset_walkItems hItem front 1)
  | source name body _ ih =>
    rw [List.append_cons, walk, walkTagged, if_neg (by decide), if_pos rfl, walkForeach]
    refine List.Subset.trans ?_ (List.subset_cons_self _ _)
    exact List.Subset.trans (ih _) (List.subset_append_left _ _)
  | body source name _ ih =>
    rw [List.append_cons, walk, walkTagged, if_neg (by decide), if_pos rfl, walkForeach]
    refine List.Subset.trans ?_ (List.subset_cons_self _ _)
    exact List.Subset.trans (ih _) (List.subset_append_right _ _)

/-- A key is in an object, and what is in scope there is in scope at its value. -/
theorem Leads.dropLast {names inner : List String} {v w : Value} {path : Path} {k : String}
    (h : Leads names v (path ++ [.field k]) inner w) :
    ∃ fields, Leads names v path inner (.object fields) ∧ (k, w) ∈ fields := by
  induction path generalizing names v with
  | nil =>
    obtain _ | ⟨hField, hRest⟩ := h
    cases hRest
    exact ⟨_, .here _ _, hField⟩
  | cons step path ih =>
    cases h with
    | field hField hRest =>
      obtain ⟨fields, hLeads, hMem⟩ := ih hRest
      exact ⟨fields, .field hField hLeads, hMem⟩
    | item hItem hRest =>
      obtain ⟨fields, hLeads, hMem⟩ := ih hRest
      exact ⟨fields, .item hItem hLeads, hMem⟩
    | source name body hRest =>
      obtain ⟨fields, hLeads, hMem⟩ := ih hRest
      exact ⟨fields, .source name body hLeads, hMem⟩
    | body source name hRest =>
      obtain ⟨fields, hLeads, hMem⟩ := ih hRest
      exact ⟨fields, .body source name hLeads, hMem⟩

theorem Stands.mem_walk {names : List String} {v : Value} {path : Path} {check : Check}
    (h : Stands names v path check) : ⟨path, check⟩ ∈ walk names [] v := by
  cases check with
  | array items =>
    obtain ⟨inner, hLeads⟩ := h
    apply hLeads.walk_subset []
    rw [walk]
    exact List.mem_cons_self
  | text inner s =>
    obtain hLeads | ⟨hComputed, hKey, w, hLeads⟩ := h
    · apply hLeads.walk_subset []
      rw [walk]
      exact List.mem_singleton.mpr rfl
    · obtain ⟨front, rfl⟩ := List.getLast?_eq_some_iff.mp hKey
      obtain ⟨fields, hObject, hField⟩ := hLeads.dropLast
      have hNode : ⟨front ++ [.field s], .text inner s⟩ ∈ walkKey inner (front ++ [.field s]) s := by
        rw [walkKey, if_pos hComputed]
        exact List.mem_singleton.mpr rfl
      apply hObject.walk_subset []
      rw [walk]
      exact walk_subset_walkFields hField front (List.mem_append_left _ hNode)

theorem mem_walk_iff (names : List String) (v : Value) (node : Node) :
    node ∈ walk names [] v ↔ Stands names v node.path node.check := by
  constructor
  · intro hNode
    obtain ⟨rest, hPath, hStands⟩ := placed_walk names [] v node hNode
    rw [hPath]
    exact hStands
  · exact Stands.mem_walk

end Reshape.Template
