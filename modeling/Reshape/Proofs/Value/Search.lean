import Reshape.Proofs.Value.Part

/-!
# Searching a value

A search finds the parts that stand under a key and not inside another part under that key. They
come in the order of the document.
-/

namespace Reshape.Value

/-- The path ends in a field of the given name, and no step before is over a field of that name. -/
def Outermost (key : String) (path : Path) : Prop :=
  path.getLast? = some (.field key) ∧ .field key ∉ path.dropLast

instance (key : String) (path : Path) : Decidable (Outermost key path) :=
  inferInstanceAs (Decidable (_ ∧ _))

theorem not_outermost_nil (key : String) : ¬ Outermost key [] := by simp [Outermost]

@[simp]
theorem outermost_cons {key : String} {step : Step} {path : Path} :
    Outermost key (step :: path) ↔
      if step = .field key then path = [] else Outermost key path := by
  cases path with
  | nil => by_cases hStep : step = .field key <;> simp [Outermost, hStep]
  | cons next rest =>
    by_cases hStep : step = .field key
    · simp [Outermost, hStep]
    · simp [Outermost, List.getLast?_cons_cons, List.dropLast_cons_cons, hStep, Ne.symm hStep]

theorem search_eq (key : String) (v : Value) : v.search key = v.children.flatMap fun child =>
    if child.1 = .field key then [child.2] else child.2.search key := by
  cases v with
  | array items =>
    have hItems : searchItems key items = items.flatMap (search key) := by
      induction items with
      | nil => rfl
      | cons v rest ih => rw [searchItems, ih, List.flatMap_cons]
    have hValues : items.zipIdx.map Prod.fst = items := List.zipIdx_map_fst 0 items
    rw [search, hItems, children, List.flatMap_map, ← hValues, List.flatMap_map, hValues]
    rfl
  | object fields =>
    rw [search, children, List.flatMap_map]
    induction fields with
    | nil => rfl
    | cons field rest ih =>
      rw [searchFields, ih, List.flatMap_cons]
      simp
  | _ => rfl

/-- Nothing but the value itself is reached in no step. -/
theorem filter_parts_nil (v : Value) : v.parts.filter (·.1 = []) = [([], v)] := by
  rw [parts_eq, List.filter_cons_of_pos (by simp)]
  congr 1
  refine List.filter_eq_nil_iff.mpr fun part hPart => ?_
  obtain ⟨child, _, hPart⟩ := List.mem_flatMap.mp hPart
  obtain ⟨inner, _, rfl⟩ := List.mem_map.mp hPart
  simp

theorem filter_within_outermost (key : String) (step : Step) (v : Value) :
    (within step v.parts).filter (fun part => Outermost key part.1) =
      if step = .field key then [([step], v)]
      else within step (v.parts.filter fun part => Outermost key part.1) := by
  rw [within, List.filter_map]
  by_cases hStep : step = .field key
  · simp only [Function.comp_def, outermost_cons, if_pos hStep]
    rw [filter_parts_nil]
    rfl
  · simp only [Function.comp_def, outermost_cons, if_neg hStep]
    rfl

theorem search_eq_filter_parts (key : String) (v : Value) :
    v.search key = (v.parts.filter fun part => Outermost key part.1).map (·.2) := by
  induction v using children_induction with
  | step v ih =>
    rw [search_eq, parts_eq, List.filter_cons_of_neg (by simp [not_outermost_nil]),
      List.filter_flatMap, List.map_flatMap]
    refine List.flatMap_congr fun child hChild => ?_
    rw [filter_within_outermost]
    split
    · rfl
    · rw [ih child hChild, within, List.map_map]
      rfl

/--
A search gives the parts at the outermost paths that end in the key, each of these paths once, and
in the order of the document.
-/
theorem search_eq_outermost {v : Value} (h : v.WellFormed) (key : String) :
    ∃ hits : List (Path × Value), v.search key = hits.map (·.2) ∧
      (∀ path w, (path, w) ∈ hits ↔ v.part? path = some w ∧ Outermost key path) ∧
      (hits.map (·.1)).Nodup ∧ hits.Pairwise fun a b => Precedes v a.1 b.1 := by
  have hOrder := (pairwise_parts v).filter fun part => decide (Outermost key part.1)
  refine ⟨_, search_eq_filter_parts key v, fun path w => ?_, ?_, hOrder⟩
  · rw [List.mem_filter, mem_parts_iff h, decide_eq_true_iff]
  · exact List.pairwise_map.mpr (hOrder.imp fun hBefore => hBefore.ne h)

/-- The hit inside an array is found, and what stands under the same key inside of it is not. -/
theorem search_eq_outermost_nested :
    let hit := object [("k", bool true)]
    let v := object [("a", array [object [("b", null), ("k", hit)], array []]), ("k", string "x")]
    let path : Path := [.field "a", .item 0, .field "k"]
    v.WellFormed ∧ v.search "k" = [hit, string "x"] ∧
      ∃ hits : List (Path × Value), v.search "k" = hits.map (·.2) ∧ (path, hit) ∈ hits ∧
        (path ++ [.field "k"], bool true) ∉ hits := by
  intro hit v path
  have hWellFormed : v.WellFormed := by
    simp [v, hit]
  obtain ⟨hits, hSearch, hMember, _⟩ := search_eq_outermost hWellFormed "k"
  refine ⟨hWellFormed, rfl, hits, hSearch, ?_, ?_⟩
  · exact (hMember path hit).mpr ⟨rfl, by decide⟩
  · intro hInner
    have hOutermost := ((hMember _ _).mp hInner).2
    revert hOutermost
    decide

end Reshape.Value
