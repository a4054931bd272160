import Reshape.Evaluation.Plan
import Reshape.Proofs.Expression.Pieces
import Reshape.Template.Compiler

/-!
# Constant templates

Quoting a value gives a template for it: arrays get the tag of a literal, and keys a backslash, so
that none of them is computed. A plain text is a single word. The plan of a quoted value gives the
value for every input.
-/

namespace Reshape

/-- Text that stands for itself as an expression. -/
structure PlainText (s : String) : Prop where
  nonempty : s ≠ ""
  trimmed : Text.Trimmed s.toList
  letters : ∀ c ∈ s.toList, c ∉ ['.', '?', '#', '!', '+', '=', '&', '|', '(', ')']
  start : ∀ c ∈ s.toList.head?, c ≠ '@' ∧ c ≠ '$'

namespace Value

mutual

def Plain : Value → Prop
  | string s => PlainText s
  | array items => ItemsPlain items
  | object fields => FieldsPlain fields
  | _ => True

def ItemsPlain : List Value → Prop
  | [] => True
  | v :: rest => v.Plain ∧ ItemsPlain rest

def FieldsPlain : List (String × Value) → Prop
  | [] => True
  | (_, v) :: rest => v.Plain ∧ FieldsPlain rest

end

mutual

def quote : Value → Value
  | array items => array (string "literal" :: quoteItems items)
  | object fields => object (quoteFields fields)
  | v => v

def quoteItems : List Value → List Value
  | [] => []
  | v :: rest => v.quote :: quoteItems rest

def quoteFields : List (String × Value) → List (String × Value)
  | [] => []
  | (k, v) :: rest => ("\\" ++ k, v.quote) :: quoteFields rest

end

end Value

namespace PlainText

variable {s : String}

theorem not_prefix (h : PlainText s) (o : Operator) {xs ys : List Char}
    (hSplit : s.toList = xs ++ ys) : ¬ o.letters <+: ys := by
  obtain ⟨c, hLetter, hSpecial⟩ : ∃ c ∈ o.letters,
      c ∈ ['.', '?', '#', '!', '+', '=', '&', '|', '(', ')'] := by
    cases o <;> simp [Operator.letters]
  intro hPrefix
  refine h.letters c ?_ hSpecial
  rw [hSplit]
  exact List.mem_append_right xs (hPrefix.subset hLetter)

theorem uncut (h : PlainText s) {xs ys : List Char} {c : Char}
    (hSplit : s.toList = xs ++ c :: ys) : Expression.Piece.Uncut [] xs c ys where
  operator o := h.not_prefix o hSplit
  openGroup := by
    rintro rfl
    exact h.letters '(' (by simp [hSplit]) (by simp)
  closeGroup := by
    rintro rfl
    exact h.letters ')' (by simp [hSplit]) (by simp)
  comma _ := Nat.lt_irrefl _
  element := by
    rintro rfl hBlank
    -- The text begins with a letter that is neither blank nor `@`.
    cases xs with
    | nil => exact (h.start '@' (by simp [hSplit])).1 rfl
    | cons first rest =>
      have hFirst := Text.trim_eq_nil_iff.mp hBlank first List.mem_cons_self
      rw [h.trimmed.1 first (by simp [hSplit])] at hFirst
      cases hFirst

theorem ofText_eq (h : PlainText s) : Expression.Token.ofText s = .ok [.word s] := by
  have hNonempty : s.toList ≠ [] := by simpa using h.nonempty
  have hCut : Expression.Piece.Cut [] [.run s.toList] := by
    refine ⟨⟨hNonempty, rfl, fun xs c ys hSplit => ?_, by simp⟩, trivial⟩
    simpa using h.uncut hSplit
  rw [Expression.Piece.ofText_of_cut (by simp [Expression.Piece.letters]) hCut]
  simp [Expression.Piece.token?, Text.trim_of_trimmed h.trimmed, h.nonempty]

theorem read_eq (h : PlainText s) (names : List String) :
    Expression.read names s = .ok (.literal (.string s)) := by
  have hDollar : s.toList.head? ≠ some '$' := fun hHead => (h.start '$' hHead).2 rfl
  have hRoot : s ≠ "$" := by
    rintro rfl
    exact hDollar rfl
  have hOperand : Expression.operand names s = .ok (.literal (.string s)) := by
    simp [Expression.operand, hRoot, hDollar]
  have hPostorder : Expression.postorder [.word s] = .ok [.word s] := rfl
  rw [Expression.read, h.ofText_eq]
  change Expression.postorder [.word s] >>= Expression.build names = _
  rw [hPostorder]
  change Expression.build names [.word s] = _
  rw [Expression.build, Expression.pushAll, Expression.push, hOperand]
  rfl

end PlainText

namespace Template

namespace Compiler

theorem expression_eq_pure {text : String} {e : Expr}
    (h : ∀ names, Expression.read names text = .ok e) (path : Path) :
    expression text path = pure e := by
  unfold expression
  simp only [h]
  rfl

theorem key_backslash (k : String) (path : Path) : key ("\\" ++ k) path = pure (.literal k) := by
  unfold key
  simp

mutual

theorem exists_plan_of_plain (v : Value) (hWellFormed : v.WellFormed) (hPlain : v.Plain)
    (path : Path) : ∃ plan, template path v.quote = pure plan ∧ ∀ scope, plan.eval scope = v := by
  cases v with
  | array items =>
    obtain ⟨plans, hItems, hEval⟩ := exists_items_of_plain items hWellFormed hPlain path 1
    refine ⟨.array plans, ?_, fun scope => ?_⟩
    · rw [Value.quote, template, tagged, if_pos rfl, hItems]
      rfl
    · simp [Plan.eval, hEval scope]
  | object fields =>
    obtain ⟨hKeys, hFields⟩ := hWellFormed
    obtain ⟨entries, hEntries, hEval⟩ := exists_entries_of_plain fields hFields hPlain path
    refine ⟨.object entries, ?_, fun scope => ?_⟩
    · rw [Value.quote, template, hEntries]
      rfl
    · simp [Plan.eval, hEval scope, hKeys]
  | string s =>
    refine ⟨.literal (.string s), ?_, fun _ => rfl⟩
    have hText : PlainText s := hPlain
    rw [Value.quote, template, expression_eq_pure hText.read_eq path]
    · rfl
    all_goals simp
  | _ => exact ⟨.literal _, rfl, fun _ => rfl⟩

theorem exists_items_of_plain (items : List Value) (hWellFormed : Value.ItemsWellFormed items)
    (hPlain : Value.ItemsPlain items) (path : Path) (index : Nat) :
    ∃ plans, Compiler.items path index (Value.quoteItems items) = pure plans ∧
      ∀ scope, Plan.evalItems scope plans = items := by
  cases items with
  | nil => exact ⟨[], rfl, fun _ => rfl⟩
  | cons v rest =>
    obtain ⟨plan, hPlan, hValue⟩ :=
      exists_plan_of_plain v hWellFormed.1 hPlain.1 (path ++ [.item index])
    obtain ⟨plans, hPlans, hValues⟩ :=
      exists_items_of_plain rest hWellFormed.2 hPlain.2 path (index + 1)
    refine ⟨plan :: plans, ?_, fun scope => ?_⟩
    · rw [Value.quoteItems, Compiler.items, hPlan]
      simp [hPlans]
    · rw [Plan.evalItems, hValue scope, hValues scope]

theorem exists_entries_of_plain (fields : List (String × Value))
    (hWellFormed : Value.FieldsWellFormed fields) (hPlain : Value.FieldsPlain fields)
    (path : Path) : ∃ entries, Compiler.entries path (Value.quoteFields fields) = pure entries ∧
      ∀ scope, Plan.evalEntries scope entries = fields := by
  match fields with
  | [] => exact ⟨[], rfl, fun _ => rfl⟩
  | (k, v) :: rest =>
    obtain ⟨plan, hPlan, hValue⟩ :=
      exists_plan_of_plain v hWellFormed.1 hPlain.1 (path ++ [.field ("\\" ++ k)])
    obtain ⟨entries, hEntries, hValues⟩ :=
      exists_entries_of_plain rest hWellFormed.2 hPlain.2 path
    refine ⟨(.literal k, plan) :: entries, ?_, fun scope => ?_⟩
    · rw [Value.quoteFields, Compiler.entries, key_backslash]
      simp [hPlan, hEntries]
    · rw [Plan.evalEntries, Key.eval, hValue scope, hValues scope]

end

end Compiler

/-- The template of a constant gives it for every input, with its keys in order. -/
theorem apply_compile_quote {v : Value} (hWellFormed : v.WellFormed) (hPlain : v.Plain) :
    ∃ plan, compile v.quote = .ok plan ∧ ∀ input, plan.apply input = v := by
  obtain ⟨plan, hPlan, hEval⟩ := Compiler.exists_plan_of_plain v hWellFormed hPlain []
  refine ⟨plan, ?_, fun input => hEval (.root input)⟩
  rw [compile, hPlan]
  rfl

theorem apply_compile_quote_nested :
    let v := Value.object
      [(".key", .array [.string "a, b* [0] @ $", .number (.integer 3), .array []]),
        ("", .object [("\\", .null)])]
    v.WellFormed ∧ v.Plain ∧
      ∃ plan, compile v.quote = .ok plan ∧ ∀ input, plan.apply input = v := by
  intro v
  have hWellFormed : v.WellFormed := by
    simp [v]
  have hText : PlainText "a, b* [0] @ $" :=
    ⟨by simp, by constructor <;> simp [Text.isBlank], by simp, by simp⟩
  have hPlain : v.Plain := by
    simp [v, Value.Plain, Value.ItemsPlain, Value.FieldsPlain, hText]
  exact ⟨hWellFormed, hPlain, apply_compile_quote hWellFormed hPlain⟩

end Template

end Reshape
