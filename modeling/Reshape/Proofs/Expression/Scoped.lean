import Reshape.Proofs.Expression.Shape

/-!
# Scoped trees

A tree is scoped when its variables are among the names in scope and its elements are inside a sort
key, filter or map. What the parser builds is scoped.
-/

namespace Reshape

namespace Expr

/-- `bound` tells whether the tree stands where an element is bound. -/
def Scoped (names : List String) (bound : Bool) : Expr → Prop
  | root => True
  | literal _ => True
  | var name => name ∈ names
  | element => bound = true
  | sortBy base key => base.Scoped names bound ∧ key.Scoped names true
  | filter base test => base.Scoped names bound ∧ test.Scoped names true
  | map base body => base.Scoped names bound ∧ body.Scoped names true
  | sort base => base.Scoped names bound
  | spread a => a.Scoped names bound
  | not a => a.Scoped names bound
  | toBool a => a.Scoped names bound
  | dedup a => a.Scoped names bound
  | reparse a => a.Scoped names bound
  | field a b => a.Scoped names bound ∧ b.Scoped names bound
  | search a b => a.Scoped names bound ∧ b.Scoped names bound
  | or a b => a.Scoped names bound ∧ b.Scoped names bound
  | and a b => a.Scoped names bound ∧ b.Scoped names bound
  | equals a b => a.Scoped names bound ∧ b.Scoped names bound
  | add a b => a.Scoped names bound ∧ b.Scoped names bound

theorem Scoped.bind {names : List String} {bound : Bool} {e : Expr} (h : e.Scoped names bound) :
    e.Scoped names true := by
  induction e <;> simp_all [Scoped]

theorem scoped_false_iff {names : List String} {e : Expr} :
    e.Scoped names false ↔ e.Scoped names true ∧ e.usesElement = false := by
  induction e with
  | field a b iha ihb | search a b iha ihb | or a b iha ihb | and a b iha ihb
  | equals a b iha ihb | add a b iha ihb =>
    simp only [Scoped, usesElement, Bool.or_eq_false_iff, iha, ihb]
    exact and_and_and_comm
  | sortBy base key ih _ | filter base test ih _ | map base body ih _ =>
    simp only [Scoped, usesElement, ih]
    exact and_right_comm
  | _ => simp_all [Scoped, usesElement]

theorem Scoped.of_two {names : List String} {bound : Bool} {e a b : Expr} {o : Operator}
    (hShape : e.shape = .two o a b) (h : e.Scoped names bound) :
    a.Scoped names bound ∧ b.Scoped names true := by
  cases e with
  | field base key => cases base <;> cases hShape <;> exact ⟨h.1, h.2.bind⟩
  | _ => cases hShape <;> exact ⟨h.1, h.2.bind⟩

theorem Scoped.of_one {names : List String} {bound : Bool} {e a : Expr} {o : Operator}
    (hShape : e.shape = .one o a) (h : e.Scoped names bound) : a.Scoped names bound := by
  cases e with
  | field base key => cases base <;> cases hShape
  | _ => cases hShape <;> exact h

theorem scoped_binary? {names : List String} {e a b : Expr} {o : Operator}
    (hTree : binary? a b o = some e) (ha : a.Scoped names true) (hb : b.Scoped names true) :
    e.Scoped names true := by
  cases o <;> cases hTree <;> exact ⟨ha, hb⟩

theorem scoped_unary? {names : List String} {e a : Expr} {o : Operator}
    (hTree : unary? a o = some e) (ha : a.Scoped names true) : e.Scoped names true := by
  cases o <;> cases hTree
  case rootField => exact ⟨trivial, ha⟩
  all_goals exact ha

end Expr

namespace Expression

theorem scoped_operand {scope : List String} {word : String} {e : Expr}
    (h : operand scope word = .ok e) : e.Scoped scope true := by
  obtain ⟨_, rfl⟩ | ⟨_, _, hMember, rfl⟩ | ⟨_, rfl⟩ := operand_ok.mp h
  · trivial
  · exact hMember
  · trivial

theorem hereditary_scoped (scope : List String) : Hereditary scope (·.Scoped scope true) where
  operand _ _ h := scoped_operand h
  element := rfl
  root := trivial
  binary _ _ _ _ h ha hb := Expr.scoped_binary? h ha hb
  unary _ _ _ h ha := Expr.scoped_unary? h ha

theorem scoped_build {scope : List String} {items : List Item} {e : Expr}
    (h : build scope items = .ok e) : e.Scoped scope false :=
  Expr.scoped_false_iff.mpr ⟨(hereditary_scoped scope).build h, (build_ok.mp h).2⟩

theorem scoped_read {scope : List String} {text : String} {e : Expr}
    (h : read scope text = .ok e) : e.Scoped scope false := by
  obtain ⟨items, hBuild⟩ := read_ok h
  exact scoped_build hBuild

end Expression

end Reshape
