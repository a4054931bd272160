import Reshape.Proofs.Expression.Postorder
import Reshape.Expression.Tree

/-!
# The shape of a tree and the operands that a postorder leaves

A tree is an atom or an operator over one or two trees. A postorder is folded item by item, so the
operands that a run of items leaves do not depend on where in the postorder it stands.
-/

namespace Reshape

@[simp]
theorem Operator.arity_of_between {o : Operator} (h : o.fixity = .between) : o.arity = 2 := by
  rw [arity, h]

@[simp]
theorem Operator.arity_of_not_between {o : Operator} (h : o.fixity ≠ .between) : o.arity = 1 := by
  cases o <;> first | rfl | exact absurd rfl h

namespace Expr

inductive Shape where
  | atom
  | one (o : Operator) (a : Expr)
  | two (o : Operator) (a b : Expr)

/-- A spread has a shape only together with the access that it is the base of. -/
def shape : Expr → Shape
  | field (spread a) b => .two .arrayMap a b
  | field a b => .two .field a b
  | search a b => .two .search a b
  | or a b => .two .or a b
  | and a b => .two .and a b
  | equals a b => .two .equals a b
  | add a b => .two .add a b
  | sortBy a b => .two .sortBy a b
  | filter a b => .two .filter a b
  | map a b => .two .map a b
  | not a => .one .not a
  | toBool a => .one .toBool a
  | sort a => .one .sort a
  | dedup a => .one .dedup a
  | reparse a => .one .json a
  | _ => .atom

theorem binary?_of_shape {e a b : Expr} {o : Operator} (h : e.shape = .two o a b) :
    binary? a b o = some e ∧ o.fixity = .between := by
  cases e with
  | field base key => cases base <;> cases h <;> exact ⟨rfl, rfl⟩
  | _ => cases h <;> exact ⟨rfl, rfl⟩

theorem unary?_of_shape {e a : Expr} {o : Operator} (h : e.shape = .one o a) :
    unary? a o = some e ∧ (o = .not ∨ o.fixity = .after) := by
  cases e with
  | field base key => cases base <;> cases h
  | not a => cases h; exact ⟨rfl, .inl rfl⟩
  | _ => cases h <;> exact ⟨rfl, .inr rfl⟩

theorem fixity_of_one {e a : Expr} {o : Operator} (h : e.shape = .one o a) :
    o.fixity ≠ .between := by
  rcases (unary?_of_shape h).2 with rfl | hFixity
  · decide
  · simp [hFixity]

/-- The trees that an operator can give: no spread stands alone. -/
def IsWhole : Expr → Prop
  | spread _ => False
  | _ => True

theorem shape_of_binary? {e a b : Expr} {o : Operator} (hWhole : a.IsWhole)
    (h : binary? a b o = some e) : e.shape = .two o a b := by
  cases o <;> cases h
  case field => cases a <;> first | rfl | cases hWhole
  all_goals rfl

theorem shape_of_unary? {e a : Expr} {o : Operator} (h : unary? a o = some e) :
    o = .rootField ∧ e = .field .root a ∨ e.shape = .one o a := by
  cases o <;> cases h <;> first | exact .inl ⟨rfl, rfl⟩ | exact .inr rfl

end Expr

namespace Expression

theorem pushAll_append (scope : List String) (index : Nat) (stack : List Expr)
    (xs ys : List Item) :
    pushAll scope index stack (xs ++ ys) =
      pushAll scope index stack xs >>= fun stack' =>
        pushAll scope (index + xs.length) stack' ys := by
  induction xs generalizing index stack with
  | nil => rfl
  | cons x xs ih =>
    simp only [List.cons_append, pushAll, List.length_cons]
    cases push scope index stack x with
    | error fault => rfl
    | ok stack' =>
      refine (ih (index + 1) stack').trans ?_
      rw [Nat.add_right_comm, Nat.add_assoc]
      rfl

theorem pushAll_append_ok {scope : List String} {index : Nat} {stack final : List Expr}
    {xs ys : List Item} : pushAll scope index stack (xs ++ ys) = .ok final ↔
    ∃ middle, pushAll scope index stack xs = .ok middle ∧
      pushAll scope (index + xs.length) middle ys = .ok final := by
  rw [pushAll_append]
  exact bind_eq_ok

theorem pushAll_cons_ok {scope : List String} {index : Nat} {stack final : List Expr}
    {item : Item} {items : List Item} : pushAll scope index stack (item :: items) = .ok final ↔
    ∃ middle, push scope index stack item = .ok middle ∧
      pushAll scope (index + 1) middle items = .ok final :=
  bind_eq_ok

@[simp]
theorem pushAll_singleton {scope : List String} {index : Nat} {stack : List Expr} {item : Item} :
    pushAll scope index stack [item] = push scope index stack item := by
  rw [pushAll]
  cases push scope index stack item <;> rfl

theorem reduce_binary {e a b : Expr} {o : Operator} (hTree : Expr.binary? a b o = some e)
    (hFixity : o.fixity = .between) (index : Nat) (stack : List Expr) :
    reduce index o (b :: a :: stack) = .ok (e :: stack) := by
  simp [reduce, hFixity, Expr.ofOperator?, hTree]

theorem reduce_unary {e a : Expr} {o : Operator} (hTree : Expr.unary? a o = some e)
    (hFixity : o.fixity ≠ .between) (index : Nat) (stack : List Expr) :
    reduce index o (a :: stack) = .ok (e :: stack) := by
  simp [reduce, hFixity, Expr.ofOperator?, hTree]

theorem reduce_two {e a b : Expr} {o : Operator} (h : e.shape = .two o a b) (index : Nat)
    (stack : List Expr) : reduce index o (b :: a :: stack) = .ok (e :: stack) := by
  obtain ⟨hTree, hFixity⟩ := Expr.binary?_of_shape h
  exact reduce_binary hTree hFixity index stack

theorem reduce_one {e a : Expr} {o : Operator} (h : e.shape = .one o a) (index : Nat)
    (stack : List Expr) : reduce index o (a :: stack) = .ok (e :: stack) :=
  reduce_unary (Expr.unary?_of_shape h).1 (Expr.fixity_of_one h) index stack

theorem reduce_ok {index : Nat} {o : Operator} {stack stack' : List Expr}
    (h : reduce index o stack = .ok stack') :
    (o.fixity = .between ∧ ∃ e a b rest, stack = b :: a :: rest ∧ stack' = e :: rest ∧
      Expr.binary? a b o = some e) ∨
    (o.fixity ≠ .between ∧ ∃ e a rest, stack = a :: rest ∧ stack' = e :: rest ∧
      Expr.unary? a o = some e) := by
  unfold reduce at h
  split at h
  · cases h
  · rename_i hLength
    by_cases hFixity : o.fixity = .between
    · rw [Operator.arity_of_between hFixity] at h hLength
      obtain _ | ⟨b, _ | ⟨a, rest⟩⟩ := stack
      · simp at hLength
      · simp at hLength
      · cases hTree : Expr.binary? a b o with
        | none => simp [Expr.ofOperator?, hTree] at h
        | some e =>
          have hResult : e :: rest = stack' := by simpa [Expr.ofOperator?, hTree] using h
          exact .inl ⟨hFixity, e, a, b, rest, rfl, hResult.symm, hTree⟩
    · rw [Operator.arity_of_not_between hFixity] at h hLength
      obtain _ | ⟨a, rest⟩ := stack
      · simp at hLength
      · cases hTree : Expr.unary? a o with
        | none => simp [Expr.ofOperator?, hTree] at h
        | some e =>
          have hResult : e :: rest = stack' := by simpa [Expr.ofOperator?, hTree] using h
          exact .inr ⟨hFixity, e, a, rest, rfl, hResult.symm, hTree⟩

theorem operand_ok {scope : List String} {name : String} {e : Expr} : operand scope name = .ok e ↔
    (name = "$" ∧ e = .root) ∨
    (name ≠ "$" ∧ name.toList.head? = some '$' ∧ name ∈ scope ∧ e = .var name) ∨
    (name.toList.head? ≠ some '$' ∧ e = .literal (.string name)) := by
  unfold operand
  by_cases hRoot : name = "$"
  · subst hRoot
    simp [eq_comm]
  · by_cases hDollar : name.toList.head? = some '$'
    · by_cases hMember : name ∈ scope <;> simp [hRoot, hDollar, hMember, eq_comm]
    · simp [hRoot, hDollar, eq_comm]

/-- What every operand has, and every tree that an operator makes of trees that have it. -/
structure Hereditary (scope : List String) (P : Expr → Prop) : Prop where
  operand : ∀ word e, Expression.operand scope word = .ok e → P e
  element : P .element
  root : P .root
  binary : ∀ o a b e, Expr.binary? a b o = some e → P a → P b → P e
  unary : ∀ o a e, Expr.unary? a o = some e → P a → P e

namespace Hereditary

variable {scope : List String} {P : Expr → Prop} {index : Nat} {stack stack' : List Expr}

theorem push (hP : Hereditary scope P) {item : Item}
    (h : Expression.push scope index stack item = .ok stack') (hStack : ∀ e ∈ stack, P e) :
    ∀ e ∈ stack', P e := by
  cases item with
  | word text =>
    obtain ⟨e, hOperand, hResult⟩ := bind_eq_ok.mp h
    cases hResult
    exact List.forall_mem_cons.mpr ⟨hP.operand text e hOperand, hStack⟩
  | element => cases h; exact List.forall_mem_cons.mpr ⟨hP.element, hStack⟩
  | root => cases h; exact List.forall_mem_cons.mpr ⟨hP.root, hStack⟩
  | op o =>
    obtain ⟨_, e, a, b, rest, rfl, rfl, hTree⟩ | ⟨_, e, a, rest, rfl, rfl, hTree⟩ := reduce_ok h
    · obtain ⟨hb, hRest⟩ := List.forall_mem_cons.mp hStack
      obtain ⟨ha, hRest⟩ := List.forall_mem_cons.mp hRest
      exact List.forall_mem_cons.mpr ⟨hP.binary o a b e hTree ha hb, hRest⟩
    · obtain ⟨ha, hRest⟩ := List.forall_mem_cons.mp hStack
      exact List.forall_mem_cons.mpr ⟨hP.unary o a e hTree ha, hRest⟩

theorem pushAll (hP : Hereditary scope P) {items : List Item}
    (h : Expression.pushAll scope index stack items = .ok stack') (hStack : ∀ e ∈ stack, P e) :
    ∀ e ∈ stack', P e := by
  induction items generalizing index stack with
  | nil => cases h; exact hStack
  | cons item items ih =>
    obtain ⟨middle, hItem, hItems⟩ := pushAll_cons_ok.mp h
    exact ih hItems (hP.push hItem hStack)

end Hereditary

theorem build_ok {scope : List String} {items : List Item} {e : Expr} :
    build scope items = .ok e ↔ pushAll scope 0 [] items = .ok [e] ∧ e.usesElement = false := by
  unfold build
  rw [bind_eq_ok]
  constructor
  · rintro ⟨stack, hStack, h⟩
    match stack with
    | [] => cases h
    | [e'] =>
      cases hElement : e'.usesElement <;> simp [hElement] at h
      exact ⟨h ▸ hStack, h ▸ hElement⟩
    | _ :: _ :: _ => cases h
  · rintro ⟨hStack, hElement⟩
    exact ⟨[e], hStack, by simp [hElement]⟩

theorem Hereditary.build {scope : List String} {P : Expr → Prop} (hP : Hereditary scope P)
    {items : List Item} {e : Expr} (h : Expression.build scope items = .ok e) : P e :=
  hP.pushAll (build_ok.mp h).1 (by simp) e List.mem_cons_self

theorem read_ok {scope : List String} {text : String} {e : Expr} (h : read scope text = .ok e) :
    ∃ items, build scope items = .ok e := by
  obtain ⟨tokens, _, h⟩ := bind_eq_ok.mp h
  obtain ⟨items, _, h⟩ := bind_eq_ok.mp h
  exact ⟨items, h⟩

end Expression

end Reshape
