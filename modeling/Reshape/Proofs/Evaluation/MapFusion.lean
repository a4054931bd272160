import Reshape.Proofs.Evaluation.Substitution

/-!
# Maps of maps

A map of a map is a single map, whose body is the outer body with the inner body in place of the
element. The inner body must not be a spread, which marks its value only where it is the base of an
access; no operand of an operator is one.
-/

namespace Reshape

namespace Expression

/-- A tree that is on the stack at some point when a postorder is folded. -/
def IsOperand (e : Expr) : Prop :=
  ∃ names index items stack, pushAll names index [] items = .ok stack ∧ e ∈ stack

theorem isSpread_operand {names : List String} {word : String} {e : Expr}
    (h : operand names word = .ok e) : e.isSpread = false := by
  obtain ⟨_, rfl⟩ | ⟨_, _, _, rfl⟩ | ⟨_, rfl⟩ := operand_ok.mp h <;> rfl

theorem hereditary_isSpread (names : List String) : Hereditary names (·.isSpread = false) where
  operand _ _ h := isSpread_operand h
  element := rfl
  root := rfl
  binary o _ _ _ h _ _ := by cases o <;> cases h <;> rfl
  unary o _ _ h _ := by cases o <;> cases h <;> rfl

theorem IsOperand.of_hereditary {P : Expr → Prop} (hP : ∀ names, Hereditary names P) {e : Expr}
    (h : IsOperand e) : P e := by
  obtain ⟨names, index, items, stack, hStack, hMember⟩ := h
  exact (hP names).pushAll hStack (by simp) e hMember

theorem IsOperand.isSpread {e : Expr} (h : IsOperand e) : e.isSpread = false :=
  h.of_hereditary hereditary_isSpread

theorem IsOperand.wellNamed {e : Expr} (h : IsOperand e) : e.WellNamed :=
  h.of_hereditary hereditary_wellNamed

end Expression

namespace Expr

/-- The element is replaced where it is free. -/
def replaceElement (e image : Expr) : Expr := e.substitute .var image

theorem realizes_replaceElement {e image : Expr} (hNamed : e.WellNamed) (v : Value)
    (scope : Scope) :
    Realizes .var image e (.bind elementName (image.eval (.bind elementName v scope)) scope)
      (.bind elementName v scope) := by
  have hOther {name : String} (hName : name ∈ e.names) : elementName ≠ name := by
    rintro rfl
    exact hNamed.element_not_mem hName
  constructor
  · simp
  · intro name hName
    simp [eval, hOther hName]
  · intro _
    simp
  · intro name hName w
    simp [eval, hOther (e.argumentNames_subset hName)]

theorem eval_replaceElement {e image : Expr} (hSpread : image.isSpread = false)
    (hNamed : e.WellNamed) (v : Value) (scope : Scope) :
    (e.replaceElement image).eval (.bind elementName v scope) =
      e.eval (.bind elementName (image.eval (.bind elementName v scope)) scope) :=
  eval_substitute (fun _ => rfl) hSpread (realizes_replaceElement hNamed v scope)

theorem onArray_map {f : List Value → Value} (body : Value → Value) (v : Value) :
    onArray f (onArray (fun items => .array (items.map body)) v) =
      onArray (fun items => f (items.map body)) v :=
  onArray_onArray f (List.map body) v

/-- Both sides are null if `a` is no array. -/
theorem eval_map_map {f g : Expr} (hf : Expression.IsOperand f) (hg : Expression.IsOperand g)
    (a : Expr) (scope : Scope) :
    (map (map a f) g).eval scope = (map a (g.replaceElement f)).eval scope := by
  have hItem (v : Value) := eval_replaceElement hf.isSpread hg.wellNamed v scope
  simp only [eval, onArray_map, List.map_map, Function.comp_def, hItem]

/-- `$ !map @[].tags !map (@[].(@.key) | @ !filter @ = $x)` -/
theorem eval_map_map_spread :
    let f := Expr.field (.spread .element) (.literal (.string "tags"))
    let g := Expr.or (.field (.spread .element) (.field .element (.literal (.string "key"))))
      (.filter .element (.equals .element (.var "$x")))
    let fused := Expr.or (.field (.spread f) (.field f (.literal (.string "key"))))
      (.filter f (.equals .element (.var "$x")))
    Expression.IsOperand f ∧ Expression.IsOperand g ∧
      ∀ scope, (map (map .root f) g).eval scope = (map .root fused).eval scope := by
  intro f g fused
  have hf : Expression.IsOperand f :=
    ⟨[], 0, [.element, .word "tags", .op .arrayMap], [f], rfl, List.mem_cons_self⟩
  have hg : Expression.IsOperand g :=
    ⟨["$x"], 0, [.element, .element, .word "key", .op .field, .op .arrayMap, .element, .element,
      .word "$x", .op .equals, .op .filter, .op .or], [g], rfl, List.mem_cons_self⟩
  exact ⟨hf, hg, eval_map_map hf hg .root⟩

end Expr

end Reshape
