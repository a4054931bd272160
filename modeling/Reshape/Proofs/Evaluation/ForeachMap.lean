import Reshape.Proofs.Evaluation.Substitution
import Reshape.Template.Compiler

/-!
# A foreach as a map

A foreach over an expression gives what a map of it gives, with the element in place of the
variable. The variable must not occur in an argument, where the element is another one.
-/

namespace Reshape

def Expr.replaceVar (e : Expr) (x : String) (image : Expr) : Expr :=
  e.substitute (fun name => if name = x then image else .var name) .element

theorem Expr.onArray_of_not_array {f : List Value → Value} {v : Value}
    (h : ∀ items, v ≠ .array items) : onArray f v = .null := by
  cases v with
  | array items => exact absurd rfl (h items)
  | _ => rfl

theorem Template.Compiler.head?_of_isVariableName {x : String} (h : isVariableName x = true) :
    x.toList.head? = some '$' := by
  unfold isVariableName at h
  split at h
  · rename_i hLetters
    rw [hLetters]
    rfl
  · cases h

@[simp]
theorem Plan.eval_planOf (e : Expr) (scope : Scope) :
    (Template.Compiler.planOf e).eval scope = e.eval scope := by
  cases e <;> rfl

theorem Expr.realizes_replaceVar {e : Expr} {x : String} (hRoot : x ≠ rootName)
    (hVariable : x ≠ elementName) (hNamed : e.WellNamed) (hElement : e.usesElement = false)
    (hArguments : x ∉ e.argumentNames) (v : Value) (scope : Scope) :
    Realizes (fun name => if name = x then .element else .var name) .element e
      (.bind x v scope) (.bind elementName v scope) where
  root := by simp [hRoot]
  var name hName := by
    have hOther : elementName ≠ name := by
      rintro rfl
      exact hNamed.element_not_mem hName
    split
    · rename_i hx
      simp [hx, eval]
    · rename_i hx
      simp [eval, hOther, Ne.symm hx]
  element hUses := by
    rw [hElement] at hUses
    cases hUses
  argument name hName w := by
    have hOther : elementName ≠ name := by
      rintro rfl
      exact hNamed.element_not_mem (e.argumentNames_subset hName)
    have hx : name ≠ x := by
      rintro rfl
      exact hArguments hName
    simp [hx, eval, hOther, hx.symm]

theorem Expr.eval_replaceVar {e : Expr} {x : String} (hRoot : x ≠ rootName)
    (hVariable : x ≠ elementName) (hNamed : e.WellNamed) (hElement : e.usesElement = false)
    (hArguments : x ∉ e.argumentNames) (v : Value) (scope : Scope) :
    (e.replaceVar x .element).eval (.bind elementName v scope) = e.eval (.bind x v scope) := by
  refine eval_substitute (fun name => ?_) rfl
    (realizes_replaceVar hRoot hVariable hNamed hElement hArguments v scope)
  split <;> rfl

/--
A literal compiles to a node of its own, so the source and the body of the foreach are either nodes
of expressions or what the expressions compile to.
-/
theorem Plan.eval_foreach_eq_eval_map {s e : Expr} {x : String}
    (hName : Template.Compiler.isVariableName x = true) (hRoot : x ≠ rootName)
    (hNamed : e.WellNamed) (hElement : e.usesElement = false) (hArguments : x ∉ e.argumentNames)
    (scope : Scope) :
    let mapped := (Expr.map s (e.replaceVar x .element)).eval scope
    (∀ source ∈ [.expr s, Template.Compiler.planOf s],
      ∀ body ∈ [.expr e, Template.Compiler.planOf e],
        (Plan.foreach source x body).eval scope = mapped) ∧
    ((∀ items, s.eval scope ≠ .array items) → mapped = .null) := by
  intro mapped
  have hVariable : x ≠ elementName := by
    rintro rfl
    cases Template.Compiler.head?_of_isVariableName hName
  refine ⟨fun source hSource body hBody => ?_, Expr.onArray_of_not_array⟩
  have hSourceEval : source.eval scope = s.eval scope := by
    obtain rfl | rfl : source = .expr s ∨ source = Template.Compiler.planOf s := by
      simpa using hSource
    · rfl
    · exact eval_planOf s scope
  have hBodyEval (v : Value) : body.eval (.bind x v scope) =
      (e.replaceVar x .element).eval (.bind elementName v scope) := by
    rw [Expr.eval_replaceVar hRoot hVariable hNamed hElement hArguments]
    obtain rfl | rfl : body = .expr e ∨ body = Template.Compiler.planOf e := by
      simpa using hBody
    · rfl
    · exact eval_planOf e _
  simp only [mapped, Plan.eval, Expr.eval, hSourceEval, hBodyEval]

/-- `["foreach", ".rows", "$r", "$r[].tags !filter @ = $y | $r"]` -/
theorem Plan.eval_foreach_eq_eval_map_filter :
    let s := Expr.field .root (.literal (.string "rows"))
    let e := Expr.or (.filter (.field (.spread (.var "$r")) (.literal (.string "tags")))
      (.equals .element (.var "$y"))) (.var "$r")
    let image := Expr.or (.filter (.field (.spread .element) (.literal (.string "tags")))
      (.equals .element (.var "$y"))) .element
    let scope := Scope.bind "$y" (.string "a") (.root (.object [("rows", .array
      [.array [.object [("tags", .array [.string "a", .string "b"])]], .null])]))
    Template.Compiler.isVariableName "$r" = true ∧ "$r" ≠ rootName ∧ e.WellNamed ∧
      e.usesElement = false ∧ "$r" ∉ e.argumentNames ∧
      (Plan.foreach (.expr s) "$r" (.expr e)).eval scope = (Expr.map s image).eval scope := by
  intro s e image scope
  have hName : Template.Compiler.isVariableName "$r" = true := by decide
  have hNamed : e.WellNamed := by
    simp [e, Expr.WellNamed, Expr.names]
  have hArguments : "$r" ∉ e.argumentNames := by decide
  have hImage : e.replaceVar "$r" .element = image := rfl
  have hEval := (eval_foreach_eq_eval_map (s := s) hName (by decide) hNamed rfl hArguments scope).1
    (.expr s) List.mem_cons_self (.expr e) List.mem_cons_self
  exact ⟨hName, by decide, hNamed, rfl, hArguments, hImage ▸ hEval⟩

end Reshape
