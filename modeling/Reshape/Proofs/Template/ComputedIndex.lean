import Reshape.Proofs.Evaluation.NumericKey
import Reshape.Proofs.Expression.FaultIndex
import Reshape.Proofs.Json.WrittenScalar
import Reshape.Proofs.Template.Navigation

/-!
# Computed indices

An index may be written in a path or be computed from the input. An integer and its numeral denote
the same number and so pick the same item of an array. Only zero does not: as a number it does not
count as true, and gives null.
-/

namespace Reshape

namespace Text

@[simp]
theorem ofDigits_decimal (n : Nat) : ofDigits (decimal n) = n := by
  have hStep : (fun n c => n * 10 + digitValue c) = fun n c => 10 * n + (c.toNat - '0'.toNat) := by
    funext n c
    rw [Nat.mul_comm, digitValue]
  rw [ofDigits, hStep]
  exact Nat.ofDigitChars_ten_toDigits

@[simp]
theorem all_isDigit_decimal (n : Nat) : (decimal n).all isDigit = true :=
  List.all_eq_true.mpr fun _ => Json.isDigit_of_mem_decimal

theorem toList_toString (n : Int) : (toString n).toList = signedDecimal n := by
  rw [← ofList_signedDecimal, String.toList_ofList]

theorem isNumeral_signedDecimal (n : Int) : IsNumeral (signedDecimal n) n := by
  have hDigits := all_isDigit_decimal n.natAbs
  have hNonempty : decimal n.natAbs ≠ [] := Nat.toDigits_ne_nil
  rw [signedDecimal]
  split
  · have hNumeral := IsNumeral.minus hNonempty hDigits
    rwa [ofDigits_decimal, show -(n.natAbs : Int) = n by omega] at hNumeral
  · have hNumeral := IsNumeral.unsigned hNonempty hDigits
    rwa [ofDigits_decimal, show (n.natAbs : Int) = n by omega] at hNumeral

/-- The numeral that is written for an integer never has the sign of a negative zero. -/
theorem binary64?_signedDecimal (n : Int) :
    binary64? (signedDecimal n) = some (Binary64.ofInt n) := by
  have hDigits := all_isDigit_decimal n.natAbs
  have hNonempty : decimal n.natAbs ≠ [] := Nat.toDigits_ne_nil
  rw [signedDecimal, Binary64.ofInt, Binary64.ofRatio]
  split
  · rename_i hNegative
    rw [binary64?_of_minus hNonempty hDigits, ofDigits_decimal, decide_eq_true hNegative]
  · rename_i hNegative
    rw [binary64?_of_digits hNonempty hDigits, ofDigits_decimal, decide_eq_false hNegative]

theorem isAlphanumeric_of_isDigit {c : Char} (h : isDigit c = true) : isAlphanumeric c = true := by
  have hDigit : c.isDigit = true := h
  have hCode : c.toNat < 0x80 := by
    simp only [Char.isDigit, Bool.and_eq_true, decide_eq_true_eq] at hDigit
    have hHigh : c.toNat ≤ 57 := hDigit.2
    omega
  rw [isAlphanumeric, if_pos hCode, Char.isAlphanum, hDigit, Bool.or_true]

theorem pathKey_toString (n : Int) : PathKey (toString n) where
  nonempty hEmpty := by
    have hNumeral := (isNumeral_signedDecimal n).ne_nil
    rw [← toList_toString, hEmpty] at hNumeral
    exact hNumeral rfl
  letters c hc := by
    rw [toList_toString, signedDecimal] at hc
    have hDigit (h : c ∈ decimal n.natAbs) : isAlphanumeric c = true :=
      isAlphanumeric_of_isDigit (Json.isDigit_of_mem_decimal h)
    split at hc
    · rcases List.mem_cons.mp hc with rfl | hc
      · exact .inr (.inr rfl)
      · exact .inl (hDigit hc)
    · exact .inl (hDigit hc)

end Text

namespace Value

/-- An integer and its numeral pick the same item, whatever the size of either. -/
theorem lookup?_toString (items : List Value) (n : Int) :
    lookup? (string (toString n)) (array items) = lookup? (number (.integer n)) (array items) := by
  have hNumeral := Text.isNumeral_signedDecimal n
  have hIndex : (string (toString n)).index? = (some (Binary64.ofInt n)).filter (·.isFinite) := by
    rw [index?, Text.toList_toString]
    simp only [hNumeral.trim_eq, if_neg hNumeral.ne_nil, Text.binary64?_signedDecimal]
  rw [lookup?, hIndex, filter_isFinite_bind, lookup?_number_array, Number.toBinary64]

@[simp]
theorem get_array_of_isTruthy {key : Value} (h : key.isTruthy = true) (items : List Value) :
    (array items).get key = (lookup? key (array items)).getD null := by
  rw [get, h]
  rfl

theorem get_toString (items : List Value) (n : Int) :
    (array items).get (string (toString n)) =
      (lookup? (number (.integer n)) (array items)).getD null := by
  have hKey : (string (toString n)).isTruthy = true :=
    bne_iff_ne.mpr (Text.pathKey_toString n).nonempty
  rw [get_array_of_isTruthy hKey, lookup?_toString]

@[simp]
theorem isTruthy_integer {n : Int} (h : n ≠ 0) : (number (.integer n)).isTruthy = true := by
  have hZero : (Binary64.ofInt n).isZero = false :=
    beq_false_of_ne (Nat.ne_of_gt (Binary64.magnitude_ofInt_pos h))
  simp [isTruthy, Number.toBinary64, hZero]

@[simp]
theorem lookup?_zero (items : List Value) :
    lookup? (number (.integer 0)) (array items) = items.head? := by
  have hZero : Binary64.ofInt 0 = .zero := by decide +kernel
  have hWhole : Binary64.zero.isWhole = true := by decide +kernel
  have hNegative : Binary64.zero.isNegative = false := by decide +kernel
  have hTruncate : Binary64.zero.truncate = 0 := by decide +kernel
  rw [lookup?_number_array, Number.toBinary64, hZero, elementAt?, hWhole, hNegative]
  simp [hNegative, hTruncate, List.head?_eq_getElem?]

@[simp]
theorem get_zero (items : List Value) : (array items).get (number (.integer 0)) = null := by
  have hKey : (number (.integer 0)).isTruthy = false := by decide +kernel
  rw [get, hKey, Bool.not_false, Bool.or_true, if_pos rfl]

theorem get_integer_eq_get_toString_iff (items : List Value) (n : Int) :
    (array items).get (number (.integer n)) = (array items).get (string (toString n)) ↔
      n ≠ 0 ∨ items.head?.getD null = null := by
  rw [get_toString]
  by_cases hZero : n = 0
  · subst hZero
    rw [get_zero, lookup?_zero, eq_comm]
    exact (or_iff_right (fun h => h rfl)).symm
  · rw [get_array_of_isTruthy (isTruthy_integer hZero)]
    exact iff_of_true rfl (.inl hZero)

end Value

namespace Expression

theorem read_computed_index (names : List String) :
    read names ".xs.(.i)" = .ok (.field (Expr.root.access "xs") (Expr.root.access "i")) := by
  have hTokens : Token.ofText ".xs.(.i)" = .ok
      [.op .field, .word "xs", .op .field, .openGroup, .op .field, .word "i", .closeGroup] := by
    cbv
  rw [read_of_ofText hTokens]
  rfl

end Expression

namespace Template

/-- The template that computes an index from the input follows one key and then the other. -/
theorem exists_compile_computed :
    ∃ plan, compile (.string ".xs.(.i)") = .ok plan ∧
      ∀ input, plan.apply input = (input.follow "xs").get (input.follow "i") := by
  refine ⟨.expr (.field (Expr.root.access "xs") (Expr.root.access "i")), ?_, fun input => ?_⟩
  · rw [compile, Compiler.template,
      Compiler.expression_eq_pure Expression.read_computed_index]
    rfl
  · have hRoot : Expr.root.IsWhole := trivial
    have hItems := Expr.eval_access hRoot (show "xs" ≠ "" by decide) (.root input)
    have hIndex := Expr.eval_access hRoot (show "i" ≠ "" by decide) (.root input)
    change ((Expr.root.access "xs").eval _).get ((Expr.root.access "i").eval _) = _
    rw [hItems, hIndex]
    rfl

theorem exists_compile_written (n : Int) :
    ∃ plan, compile (.string (".xs." ++ toString n)) = .ok plan ∧
      ∀ input, plan.apply input = (input.follow "xs").get (.string (toString n)) := by
  have hKey : PathKey "xs" := ⟨by simp, by simp [Text.isAlphanumeric]⟩
  have hNumeral : ∀ key ∈ [toString n], PathKey key := by
    simpa using Text.pathKey_toString n
  have hText : ".xs." ++ toString n =
      Operator.field.spelling ++ "xs" ++ String.join ([toString n].map ("." ++ ·)) := by
    rw [List.map_singleton, String.join_cons, String.join_nil, String.append_empty,
      ← String.append_assoc]
    rfl
  refine ⟨_, hText ▸ compile_path hKey hNumeral (o := .field) rfl, fun input => ?_⟩
  have hRoot : Expr.root.IsWhole := trivial
  rw [Plan.apply, Plan.eval_planOf,
    Expr.eval_foldl_access hRoot (List.forall_mem_cons.mpr ⟨hKey, hNumeral⟩)]
  exact (Value.get_string _ (Text.pathKey_toString n).nonempty).symm

/--
An integer other than zero and its numeral pick the same item of every array, so that computing an
index and writing it come to the same. The integer zero gives null, and agrees with its numeral just
if the numeral gives null too.
-/
theorem computed_index_eq_written_iff (n : Int) :
    (∀ items : List Value,
      (Value.array items).get (.number (.integer n)) =
          (Value.array items).get (.string (toString n)) ↔
        n ≠ 0 ∨ items.head?.getD .null = .null) ∧
    ∃ computed written : Plan, compile (.string ".xs.(.i)") = .ok computed ∧
      compile (.string (".xs." ++ toString n)) = .ok written ∧
      ∀ (fields : List (String × Value)) (items : List Value),
        fields.lookup "xs" = some (.array items) →
        fields.lookup "i" = some (.number (.integer n)) →
        (computed.apply (.object fields) = written.apply (.object fields) ↔
          n ≠ 0 ∨ items.head?.getD .null = .null) := by
  obtain ⟨computed, hComputed, hIndex⟩ := exists_compile_computed
  obtain ⟨written, hWritten, hNumeral⟩ := exists_compile_written n
  refine ⟨fun items => Value.get_integer_eq_get_toString_iff items n, computed, written, hComputed,
    hWritten, fun fields items hItems hInteger => ?_⟩
  have hArray : (Value.object fields).follow "xs" = .array items := by
    simp [Value.follow, Value.isTruthy, hItems]
  have hNumber : (Value.object fields).follow "i" = .number (.integer n) := by
    simp [Value.follow, Value.isTruthy, hInteger]
  rw [hIndex, hNumeral, hArray, hNumber]
  exact Value.get_integer_eq_get_toString_iff items n

/-- The last item, by an index that counts from the end. -/
theorem computed_index_eq_written_iff_last :
    let items : List Value := [.null, .string "a"]
    let fields : List (String × Value) := [("xs", .array items), ("i", .number (.integer (-1)))]
    fields.lookup "xs" = some (.array items) ∧
      fields.lookup "i" = some (.number (.integer (-1))) ∧
      ∃ computed written : Plan, compile (.string ".xs.(.i)") = .ok computed ∧
        compile (.string ".xs.-1") = .ok written ∧
        computed.apply (.object fields) = written.apply (.object fields) := by
  intro items fields
  obtain ⟨_, computed, written, hComputed, hWritten, hApply⟩ := computed_index_eq_written_iff (-1)
  exact ⟨rfl, rfl, computed, written, hComputed, hWritten,
    (hApply fields items rfl rfl).mpr (.inl (by decide))⟩

/-- The number zero as an index gives null, and its numeral the first item. -/
theorem get_zero_ne_get_numeral :
    let items : List Value := [.string "a", .string "b"]
    (Value.array items).get (.number (.integer 0)) ≠
        (Value.array items).get (.string (toString (0 : Int))) ∧
      (Value.array items).get (.number (.integer 0)) = .null ∧
      (Value.array items).get (.string (toString (0 : Int))) = .string "a" := by
  intro items
  have hNumeral : (Value.array items).get (.string (toString (0 : Int))) = .string "a" := by
    rw [Value.get_toString, Value.lookup?_zero]
    rfl
  refine ⟨?_, Value.get_zero items, hNumeral⟩
  rw [Value.get_zero, hNumeral]
  exact Value.noConfusion

end Template

end Reshape
