import Mathlib
import Reshape.Evaluation.Plan
import Reshape.Proofs.Value.Addition

/-!
# Whole numbers as texts and keys

The text of a whole number is the decimal numeral of an integer: of its own value if it is held as
an integer, and of the nearest integer of 64 bits with sign if it is held as a double. Two computed
keys are the same exactly if these integers are.
-/

namespace Reshape

theorem Text.ofList_signedDecimal (n : Int) : String.ofList (signedDecimal n) = toString n := by
  cases n with
  | ofNat k => rfl
  | negSucc k =>
    rw [signedDecimal, if_pos (Int.negSucc_lt_zero k), Int.natAbs_negSucc, String.ofList_cons]
    rfl

namespace Number

/-- The integer that the text of a whole number shows. -/
def shown : Number → Int
  | integer n => n
  | double x => saturate x.truncate

theorem saturate_eq_iff {n : Int} : saturate n = n ↔ -2 ^ 63 ≤ n ∧ n < 2 ^ 63 := by
  unfold saturate
  omega

/-- A number of value `v` is held as an integer, or 64 bits with sign are enough for the value. -/
def Shows (n : Number) (v : Int) : Prop := (∃ k, n = integer k) ∨ -2 ^ 63 ≤ v ∧ v < 2 ^ 63

variable {n : Number} {v : Int}

theorem text_of_whole? (h : n.whole? = some v) (hSize : v.natAbs < 10 ^ 21) :
    n.text = Text.signedDecimal n.shown := by
  cases n with
  | integer k => rfl
  | double x =>
    obtain ⟨hWhole, hValue⟩ := Option.ite_none_right_eq_some.mp h
    cases hValue
    rw [text, hWhole, Bool.true_and, if_pos (decide_eq_true hSize), shown]

theorem shown_eq_iff (h : n.whole? = some v) : n.shown = v ↔ n.Shows v := by
  cases n with
  | integer k =>
    cases h
    exact iff_of_true rfl (.inl ⟨v, rfl⟩)
  | double x =>
    obtain ⟨_, hValue⟩ := Option.ite_none_right_eq_some.mp h
    cases hValue
    rw [shown, saturate_eq_iff]
    simp [Shows]

end Number

theorem Value.text_of_whole? {n : Number} {v : Int} (h : n.whole? = some v)
    (hSize : v.natAbs < 10 ^ 21) : (number n).text = toString n.shown := by
  rw [text, Number.text_of_whole? h hSize, Text.ofList_signedDecimal]

namespace Key

variable {d e : Expr} {scope : Scope} {m n : Number} {v w : Int}

theorem eval_computed (hd : d.eval scope = .number m) (hm : m.whole? = some v)
    (hv : v.natAbs < 10 ^ 21) : (computed d).eval scope = toString m.shown := by
  rw [eval, hd, Value.text_of_whole? hm hv]

theorem eval_object_of_ne (p q : Plan) (h : (computed d).eval scope ≠ (computed e).eval scope) :
    (Plan.object [(computed d, p), (computed e, q)]).eval scope =
      .object [((computed d).eval scope, p.eval scope), ((computed e).eval scope, q.eval scope)] := by
  simp [Plan.eval, Plan.evalEntries, h]

/--
A whole number below `10 ^ 21` is its own numeral as a key exactly if it is held as an integer or
lies in the range of 64 bits with sign. Among such numbers keys are the same for the same values
only, so that none takes the place of another in an object.
-/
theorem eval_computed_whole_iff (hd : d.eval scope = .number m) (he : e.eval scope = .number n)
    (hm : m.whole? = some v) (hn : n.whole? = some w) (hv : v.natAbs < 10 ^ 21)
    (hw : w.natAbs < 10 ^ 21) :
    ((Value.number m).text = toString v ↔ m.Shows v) ∧
    ((computed d).eval scope = (computed e).eval scope ↔ m.shown = n.shown) ∧
    (m.Shows v → n.Shows w →
      ((computed d).eval scope = (computed e).eval scope ↔ v = w) ∧
      ∀ p q : Plan, v ≠ w → (Plan.object [(computed d, p), (computed e, q)]).eval scope =
        .object [(toString v, p.eval scope), (toString w, q.eval scope)]) := by
  have hKey := eval_computed hd hm hv
  have hKey' := eval_computed he hn hw
  have hSame : (computed d).eval scope = (computed e).eval scope ↔ m.shown = n.shown := by
    rw [hKey, hKey']
    exact Int.repr_inj
  refine ⟨?_, hSame, fun hShows hShows' => ?_⟩
  · rw [Value.text_of_whole? hm hv, ← Number.shown_eq_iff hm]
    exact Int.repr_inj
  · rw [(Number.shown_eq_iff hm).mpr hShows] at hSame hKey
    rw [(Number.shown_eq_iff hn).mpr hShows'] at hSame hKey'
    refine ⟨hSame, fun p q hDiffer => ?_⟩
    rw [eval_object_of_ne p q (hSame.not.mpr hDiffer), hKey, hKey']

/-- The least integer of 64 bits with sign, held as a double, and the largest one without sign. -/
theorem eval_computed_whole_iff_ends :
    let m : Number := .double (.ofInt (-9223372036854775808))
    let n : Number := .integer 18446744073709551615
    m.whole? = some (-9223372036854775808) ∧ n.whole? = some 18446744073709551615 ∧
      (Value.number m).text = "-9223372036854775808" ∧
      (Plan.object [(computed (.literal (.number m)), .literal .null),
          (computed (.literal (.number n)), .literal .null)]).eval (.root .null) =
        .object [("-9223372036854775808", .null), ("18446744073709551615", .null)] := by
  intro m n
  have hm : m.whole? = some (-9223372036854775808) := by decide +kernel
  have hn : n.whole? = some 18446744073709551615 := rfl
  have hShows : m.Shows (-9223372036854775808) := .inr (by decide)
  have hShows' : n.Shows 18446744073709551615 := .inl ⟨_, rfl⟩
  have hd : (Expr.literal (.number m)).eval (.root .null) = .number m := rfl
  have he : (Expr.literal (.number n)).eval (.root .null) = .number n := rfl
  have hKeys := eval_computed_whole_iff hd he hm hn (by decide) (by decide)
  refine ⟨hm, hn, hKeys.1.mpr hShows, ?_⟩
  exact (hKeys.2.2 hShows hShows').2 (.literal .null) (.literal .null) (by decide)

/-- Both doubles are too large for an integer of 64 bits with sign, and become the largest one. -/
theorem eval_computed_saturated :
    let m : Number := .double (.ofInt 100000000000000000000)
    let n : Number := .double (.ofInt 10000000000000000000)
    m.whole? = some 100000000000000000000 ∧ n.whole? = some 10000000000000000000 ∧
      (Value.number m).text = "9223372036854775807" ∧
      (computed (.literal (.number m))).eval (.root .null) =
        (computed (.literal (.number n))).eval (.root .null) := by
  intro m n
  have hm : m.whole? = some 100000000000000000000 := by decide +kernel
  have hn : n.whole? = some 10000000000000000000 := by decide +kernel
  have hShown : m.shown = 9223372036854775807 := by decide +kernel
  have hShown' : n.shown = 9223372036854775807 := by decide +kernel
  refine ⟨hm, hn, ?_, ?_⟩
  · rw [Value.text_of_whole? hm (by decide), hShown]
    rfl
  · rw [eval_computed rfl hm (by decide), eval_computed rfl hn (by decide), hShown, hShown']

end Key

end Reshape
