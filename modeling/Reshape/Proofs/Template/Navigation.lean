import Reshape.Proofs.Evaluation.ForeachMap
import Reshape.Proofs.Expression.Rendering
import Reshape.Proofs.Template.Constant
import Reshape.Proofs.Value.Index

/-!
# Path templates

A path is keys with a dot in front of each. Its template follows the keys from the input, one after
the other, and gives null from the first one on that picks nothing.
-/

namespace Reshape

/-- A name made of letters, digits, underscores and hyphens. -/
structure PathKey (key : String) : Prop where
  nonempty : key ≠ ""
  letters : ∀ c ∈ key.toList, Text.isAlphanumeric c = true ∨ c = '_' ∨ c = '-'

/-- The code points of the blanks. -/
def Text.blankCodes : List Nat :=
  List.range' 0x09 5 ++ List.range' 0x2000 11 ++
    [0x20, 0x85, 0xA0, 0x1680, 0x2028, 0x2029, 0x202F, 0x205F, 0x3000]

theorem Text.isAlphanumeric_of_isBlank {c : Char} (h : isBlank c = true) :
    isAlphanumeric c = false := by
  have hCode : c.toNat ∈ blankCodes := by
    simp only [isBlank, Bool.or_eq_true, Bool.and_eq_true, decide_eq_true_eq, beq_iff_eq] at h
    simp only [blankCodes, List.mem_append, List.mem_range'_1, List.mem_cons, List.not_mem_nil]
    omega
  have hTable : ∀ code ∈ blankCodes, isAlphanumeric (Char.ofNat code) = false := by
    decide +kernel
  have hLetter := hTable c.toNat hCode
  rwa [Char.ofNat_toNat] at hLetter

/-- The characters that an operator begins with, and those of punctuation. -/
def cutters : List Char :=
  ['.', '$', '[', '*', '?', '#', '!', '+', '=', '&', '|', '(', ')', ',', '@']

theorem Operator.head_mem_cutters {o : Operator} {c : Char} {rest : List Char}
    (h : o.letters <+: c :: rest) : c ∈ cutters := by
  have hHead : ∀ first ∈ o.letters.head?, first ∈ cutters := by
    cases o <;> simp [letters, cutters]
  obtain ⟨first, others, hLetters⟩ := List.exists_cons_of_ne_nil o.letters_ne_nil
  have hFirst := hHead first (by rw [hLetters]; rfl)
  rw [hLetters] at h
  rwa [(List.cons_prefix_cons.mp h).1] at hFirst

namespace PathKey

variable {key : String}

theorem eq_of_not_alphanumeric (h : PathKey key) {c : Char} (hc : c ∈ key.toList)
    (hOther : Text.isAlphanumeric c = false) : c = '_' ∨ c = '-' := by
  rcases h.letters c hc with hLetter | hMark
  · rw [hOther] at hLetter
    cases hLetter
  · exact hMark

theorem not_mem_cutters (h : PathKey key) {c : Char} (hc : c ∈ key.toList) : c ∉ cutters := by
  have hTable : ∀ d ∈ cutters, Text.isAlphanumeric d = false ∧ d ≠ '_' ∧ d ≠ '-' := by
    simp [cutters, Text.isAlphanumeric]
  intro hCutter
  obtain ⟨hOther, hUnderscore, hHyphen⟩ := hTable c hCutter
  exact (h.eq_of_not_alphanumeric hc hOther).elim hUnderscore hHyphen

theorem isBlank_eq_false (h : PathKey key) {c : Char} (hc : c ∈ key.toList) :
    Text.isBlank c = false := by
  cases hBlank : Text.isBlank c with
  | false => rfl
  | true =>
    obtain rfl | rfl := h.eq_of_not_alphanumeric hc (Text.isAlphanumeric_of_isBlank hBlank)
    · cases hBlank
    · cases hBlank

@[simp]
theorem trim_eq (h : PathKey key) : Text.trim key.toList = key.toList :=
  Text.trim_of_trimmed (Text.trimmed_of_forall fun _ hc => h.isBlank_eq_false hc)

theorem toList_ne_nil (h : PathKey key) : key.toList ≠ [] := by simpa using h.nonempty

theorem head?_ne_dollar (h : PathKey key) : key.toList.head? ≠ some '$' := fun hHead =>
  h.not_mem_cutters (List.mem_of_head? hHead) (by decide)

theorem uncut (h : PathKey key) (before : List Expression.Piece) {xs ys : List Char} {c : Char}
    (hSplit : key.toList = xs ++ c :: ys) (rest : List Char) :
    Expression.Piece.Uncut before xs c rest := by
  have hc : c ∉ cutters := h.not_mem_cutters (by simp [hSplit])
  constructor
  · exact fun o hPrefix => hc (Operator.head_mem_cutters hPrefix)
  all_goals
    rintro rfl
    exact absurd (by decide) hc

end PathKey

namespace Expression

open Piece (Cut)

def pathPieces (keys : List String) : List Piece :=
  keys.flatMap fun key => [.op .field, .run key.toList]

def pathTokens (keys : List String) : List Token := keys.flatMap fun key => [.op .field, .word key]

theorem letters_pathPieces (keys : List String) :
    (pathPieces keys).flatMap Piece.letters = (String.join (keys.map ("." ++ ·))).toList := by
  rw [String.toList_join, pathPieces, List.flatMap_assoc, List.flatMap_map]
  simp [Piece.letters, Operator.letters]

theorem filterMap_pathPieces {keys : List String} (h : ∀ key ∈ keys, PathKey key) :
    (pathPieces keys).filterMap Piece.token? = pathTokens keys := by
  induction keys with
  | nil => rfl
  | cons key keys ih =>
    obtain ⟨hKey, hKeys⟩ := List.forall_mem_cons.mp h
    have hRest := ih hKeys
    simp only [pathPieces, pathTokens, List.flatMap_cons] at hRest ⊢
    simp [hRest, Piece.token?, hKey, hKey.nonempty]

theorem fits_dot {o : Operator} (hDot : o.isDot = true) (before : List Piece) (rest : List Char) :
    (Piece.op o).Fits before rest := by
  intro other hPrefix
  cases o with
  | field | rootField => cases other <;> simp [Operator.letters] at hPrefix ⊢
  | _ => cases hDot

theorem head_of_pathPieces {keys : List String} {c : Char} {rest : List Char}
    (h : (pathPieces keys).flatMap Piece.letters = c :: rest) : c = '.' := by
  cases keys with
  | nil => cases h
  | cons key keys => exact (List.cons.inj h).1.symm

theorem fits_key {key : String} (h : PathKey key) (keys : List String) {before : List Piece}
    (hPending : Piece.pending before = []) :
    (Piece.run key.toList).Fits before ((pathPieces keys).flatMap Piece.letters) where
  nonempty := h.toList_ne_nil
  start := hPending
  inside _ _ _ hSplit := h.uncut before hSplit _
  stop c ys hText hUncut := by
    obtain rfl := head_of_pathPieces hText
    exact hUncut.operator .field ⟨ys, rfl⟩

theorem cut_access {o : Operator} (hDot : o.isDot = true) {key : String} (hKey : PathKey key)
    {keys : List String} (hKeys : ∀ key ∈ keys, PathKey key) (before : List Piece) :
    Cut before (.op o :: .run key.toList :: pathPieces keys) := by
  have hOperator := fits_dot hDot before
  have hPending := Piece.pending_concat before (.op o)
  induction keys generalizing o key before with
  | nil => exact ⟨hOperator _, fits_key hKey [] hPending, trivial⟩
  | cons next keys ih =>
    obtain ⟨hNext, hRest⟩ := List.forall_mem_cons.mp hKeys
    exact ⟨hOperator _, fits_key hKey (next :: keys) hPending,
      ih rfl hNext hRest _ (fits_dot rfl _) (Piece.pending_concat _ _)⟩

theorem ofText_path {key : String} (hKey : PathKey key) {keys : List String}
    (hKeys : ∀ key ∈ keys, PathKey key) {o : Operator} (hDot : o.isDot = true) :
    Token.ofText (o.spelling ++ key ++ String.join (keys.map ("." ++ ·))) =
      .ok (.op o :: .word key :: pathTokens keys) := by
  have hWord : (Piece.run key.toList).token? = some (.word key) := by
    simp [Piece.token?, hKey, hKey.nonempty]
  rw [Piece.ofText_of_cut ?_ (cut_access hDot hKey hKeys [])]
  · rw [List.filterMap_cons, List.filterMap_cons, hWord, filterMap_pathPieces hKeys]
    rfl
  · rw [List.flatMap_cons, List.flatMap_cons, letters_pathPieces, String.toList_append,
      String.toList_append, Operator.spelling, String.toList_ofList, List.append_assoc]
    rfl

/-- In front of a path the root may be named or not. -/
theorem postorder_dot {o : Operator} (hDot : o.isDot = true) (tokens : List Token) :
    postorder (.op o :: tokens) = postorder (.op .field :: tokens) := by
  cases o with
  | field | rootField => rfl
  | _ => cases hDot

/-! ## The tree of a path -/

end Expression

namespace Expr

def access (base : Expr) (key : String) : Expr := .field base (.literal (.string key))

theorem isSpread_of_isWhole {e : Expr} (h : e.IsWhole) : e.isSpread = false := by
  cases e with
  | spread a => cases h
  | _ => rfl

theorem eval_access {base : Expr} (hWhole : base.IsWhole) {key : String} (hKey : key ≠ "")
    (scope : Scope) : (base.access key).eval scope = (base.eval scope).follow key := by
  rw [access, eval, isSpread_of_isWhole hWhole]
  exact Value.get_string _ hKey

theorem eval_foldl_access {base : Expr} (hWhole : base.IsWhole) {keys : List String}
    (hKeys : ∀ key ∈ keys, PathKey key) (scope : Scope) :
    (keys.foldl access base).eval scope = keys.foldl Value.follow (base.eval scope) := by
  induction keys generalizing base with
  | nil => rfl
  | cons key keys ih =>
    obtain ⟨hKey, hRest⟩ := List.forall_mem_cons.mp hKeys
    rw [List.foldl_cons, List.foldl_cons, ← eval_access hWhole hKey.nonempty]
    exact ih trivial hRest

end Expr

namespace Expression

/-- A tree without variables, and tokens that write it with nothing looser than an access. -/
structure Accesses (e : Expr) (tokens : List Token) : Prop where
  whole : e.IsWhole
  written : e.Written
  inScope : ∀ names, e.Scoped names false
  rendering : Rendering e Operator.field.precedence tokens

namespace Accesses

theorem root {key : String} (h : PathKey key) :
    Accesses (Expr.root.access key) [.op .field, .word key] where
  whole := trivial
  written := .two (o := .field) rfl .root (.literal key h.head?_ne_dollar)
  inScope _ := ⟨trivial, trivial⟩
  rendering := .access (.literal key)

theorem access {e : Expr} {tokens : List Token} (he : Accesses e tokens) {key : String}
    (h : PathKey key) : Accesses (e.access key) (tokens ++ [.op .field, .word key]) := by
  have hShape : (e.access key).shape = .two .field e (.literal (.string key)) :=
    Expr.shape_of_binary? he.whole rfl
  exact {
    whole := trivial
    written := .two hShape he.written (.literal key h.head?_ne_dollar)
    inScope names := ⟨he.inScope names, trivial⟩
    rendering := .between hShape he.rendering (.literal key) (Nat.le_refl _) (by decide) }

theorem foldl {e : Expr} {tokens : List Token} (he : Accesses e tokens) {keys : List String}
    (hKeys : ∀ key ∈ keys, PathKey key) :
    Accesses (keys.foldl Expr.access e) (tokens ++ pathTokens keys) := by
  induction keys generalizing e tokens with
  | nil => simpa [pathTokens] using he
  | cons key keys ih =>
    obtain ⟨hKey, hRest⟩ := List.forall_mem_cons.mp hKeys
    have hAccesses := ih (he.access hKey) hRest
    rwa [List.append_assoc] at hAccesses

theorem exists_postorder {e : Expr} {tokens : List Token} (h : Accesses e tokens)
    (names : List String) : ∃ items, postorder tokens = .ok items ∧ build names items = .ok e := by
  obtain ⟨hBound, hElement⟩ := Expr.scoped_false_iff.mp (h.inScope names)
  obtain ⟨out, os, index, hRun, _, hLeaves⟩ := Postorder.run_rendering h.rendering h.written
    hBound .start [] rfl (Postorder.holds_nil _)
  refine ⟨out ++ os.map .op, ?_, build_ok.mpr ⟨hLeaves 0 [], hElement⟩⟩
  rw [List.append_nil] at hRun
  rw [postorder, hRun]
  simp [Postorder.State.start, Postorder.run, Postorder.finish, bind, Except.bind]

end Accesses

theorem read_path {key : String} (hKey : PathKey key) {keys : List String}
    (hKeys : ∀ key ∈ keys, PathKey key) {o : Operator} (hDot : o.isDot = true)
    (names : List String) :
    read names (o.spelling ++ key ++ String.join (keys.map ("." ++ ·))) =
      .ok ((key :: keys).foldl Expr.access .root) := by
  obtain ⟨items, hItems, hBuild⟩ :=
    ((Accesses.root hKey).foldl hKeys).exists_postorder names
  have hPostorder : postorder (.op o :: .word key :: pathTokens keys) = .ok items :=
    (postorder_dot hDot _).trans hItems
  rw [read, ofText_path hKey hKeys hDot]
  change postorder _ >>= build names = _
  rw [hPostorder]
  exact hBuild

end Expression

namespace Template

theorem compile_path {key : String} (hKey : PathKey key) {keys : List String}
    (hKeys : ∀ key ∈ keys, PathKey key) {o : Operator} (hDot : o.isDot = true) :
    compile (.string (o.spelling ++ key ++ String.join (keys.map ("." ++ ·)))) =
      .ok (Compiler.planOf ((key :: keys).foldl Expr.access .root)) := by
  rw [compile, Compiler.template,
    Compiler.expression_eq_pure (Expression.read_path hKey hKeys hDot)]
  rfl

/--
A path template compiles, with or without a name for the root, and follows its keys from the input.
In an array a key picks the item at the whole number that it denotes, and the numeral of an integer
the item at that integer.
-/
theorem apply_compile_path {keys : List String} (hNonempty : keys ≠ [])
    (hKeys : ∀ key ∈ keys, PathKey key) :
    ∃ plan, compile (.string (String.join (keys.map ("." ++ ·)))) = .ok plan ∧
      compile (.string ("$" ++ String.join (keys.map ("." ++ ·)))) = .ok plan ∧
      (∀ input, plan.apply input = keys.foldl Value.follow input) ∧
      ∀ key ∈ keys, ∀ items : List Value, items.length < 2 ^ 53 →
        (Value.array items).follow key =
            ((Value.wholeNumber? key).bind (Value.itemAt? items)).getD .null ∧
          ∀ n, Text.IsNumeral key.toList n →
            (Value.array items).follow key = (Value.itemAt? items n).getD .null := by
  obtain ⟨first, rest, rfl⟩ := List.exists_cons_of_ne_nil hNonempty
  obtain ⟨hFirst, hRest⟩ := List.forall_mem_cons.mp hKeys
  have hText : String.join ((first :: rest).map ("." ++ ·)) =
      Operator.field.spelling ++ first ++ String.join (rest.map ("." ++ ·)) := by
    rw [List.map_cons, String.join_cons]
    rfl
  have hRooted : "$" ++ String.join ((first :: rest).map ("." ++ ·)) =
      Operator.rootField.spelling ++ first ++ String.join (rest.map ("." ++ ·)) := by
    rw [hText, ← String.append_assoc, ← String.append_assoc]
    rfl
  have hField := compile_path hFirst hRest (o := .field) rfl
  have hRootField := compile_path hFirst hRest (o := .rootField) rfl
  rw [← hText] at hField
  rw [← hRooted] at hRootField
  refine ⟨_, hField, hRootField, fun input => ?_, ?_⟩
  · have hRoot : Expr.root.IsWhole := trivial
    rw [Plan.apply, Plan.eval_planOf]
    exact Expr.eval_foldl_access hRoot hKeys (.root input)
  · intro key _ items hLength
    exact ⟨Value.follow_array (Nat.le_of_lt hLength) key,
      fun n hNumeral => Value.follow_of_isNumeral hLength hNumeral⟩

/-- The last item of an array that stands in a field. -/
theorem apply_compile_path_last :
    ["a", "-1"] ≠ [] ∧ (∀ key ∈ ["a", "-1"], PathKey key) ∧
      ∃ plan, compile (.string ".a.-1") = .ok plan ∧ compile (.string "$.a.-1") = .ok plan ∧
        plan.apply (.object [("a", .array [.null, .bool true])]) = .bool true := by
  have hKeys : ∀ key ∈ ["a", "-1"], PathKey key := by
    simp only [List.forall_mem_cons]
    exact ⟨⟨by simp, by simp [Text.isAlphanumeric]⟩, ⟨by simp, by simp [Text.isAlphanumeric]⟩,
      by simp⟩
  obtain ⟨plan, hPlan, hRooted, hApply, hArray⟩ := apply_compile_path (by simp) hKeys
  have hField : (Value.object [("a", .array [.null, .bool true])]).follow "a" =
      .array [.null, .bool true] := rfl
  have hNumeral : Text.IsNumeral ['-', '1'] (-(Text.ofDigits ['1'] : Nat)) :=
    .minus (by simp) (by decide)
  have hLast := (hArray "-1" (by simp) [.null, .bool true] (by simp)).2 (-1) hNumeral
  refine ⟨by simp, hKeys, plan, hPlan, hRooted, ?_⟩
  rw [hApply, List.foldl_cons, List.foldl_cons, List.foldl_nil, hField, hLast]
  rfl

end Template

end Reshape
