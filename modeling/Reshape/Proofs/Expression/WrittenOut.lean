import Mathlib.Logic.Relation
import Reshape.Proofs.Expression.Rendering

/-!
# Trees written out in post-order

`build` is the inverse of writing a tree in post-order, but for two spellings of the root: the word
`$` is the root, and an access of the root is one operator behind its key. It succeeds exactly if
every operator finds its operands, one operand is left, and the tree is closed.
-/

namespace Reshape

namespace Expr

/-- A literal that is no text, and a spread without its access, have no items of their own. -/
def postorder : Expr → List Expression.Item
  | root => [.root]
  | element => [.element]
  | literal (.string s) => [.word s]
  | literal _ => []
  | var name => [.word name]
  | field (spread a) b => a.postorder ++ b.postorder ++ [.op .arrayMap]
  | field a b => a.postorder ++ b.postorder ++ [.op .field]
  | spread _ => []
  | search a b => a.postorder ++ b.postorder ++ [.op .search]
  | or a b => a.postorder ++ b.postorder ++ [.op .or]
  | and a b => a.postorder ++ b.postorder ++ [.op .and]
  | equals a b => a.postorder ++ b.postorder ++ [.op .equals]
  | add a b => a.postorder ++ b.postorder ++ [.op .add]
  | sortBy a b => a.postorder ++ b.postorder ++ [.op .sortBy]
  | filter a b => a.postorder ++ b.postorder ++ [.op .filter]
  | map a b => a.postorder ++ b.postorder ++ [.op .map]
  | not a => a.postorder ++ [.op .not]
  | toBool a => a.postorder ++ [.op .toBool]
  | sort a => a.postorder ++ [.op .sort]
  | dedup a => a.postorder ++ [.op .dedup]
  | reparse a => a.postorder ++ [.op .json]

theorem postorder_of_two {e a b : Expr} {o : Operator} (h : e.shape = .two o a b) :
    e.postorder = a.postorder ++ b.postorder ++ [.op o] := by
  cases e with
  | field base key => cases base <;> cases h <;> rfl
  | _ => cases h <;> rfl

theorem postorder_of_one {e a : Expr} {o : Operator} (h : e.shape = .one o a) :
    e.postorder = a.postorder ++ [.op o] := by
  cases e with
  | field base key => cases base <;> cases h
  | _ => cases h <;> rfl

theorem exists_binary? (a b : Expr) {o : Operator} (h : o.fixity = .between) :
    ∃ e, binary? a b o = some e := by
  cases o <;> first | exact ⟨_, rfl⟩ | cases h

theorem exists_unary? (a : Expr) {o : Operator} (h : o.fixity ≠ .between) :
    ∃ e, unary? a o = some e := by
  cases o <;> first | exact ⟨_, rfl⟩ | exact absurd rfl h

theorem Written.isWhole {e : Expr} (h : e.Written) : e.IsWhole := by
  cases h with
  | one hShape _ => cases e <;> trivial
  | two hShape _ _ => cases e <;> trivial
  | _ => trivial

end Expr

namespace Expression

def Item.arity : Item → Nat
  | .op o => o.arity
  | _ => 0

def Item.InScope (scope : List String) : Item → Prop
  | .word name => name.toList.head? = some '$' → name = "$" ∨ name ∈ scope
  | _ => True

/--
How many operands there are behind the items when there are `count` before them, if every item finds
those that it takes.
-/
def remaining? (count : Nat) : List Item → Option Nat
  | [] => some count
  | item :: rest => if count < item.arity then none else remaining? (count - item.arity + 1) rest

theorem remaining?_cons {count : Nat} {item : Item} (h : item.arity ≤ count) (rest : List Item) :
    remaining? count (item :: rest) = remaining? (count - item.arity + 1) rest :=
  if_neg (Nat.not_lt.mpr h)

/-- One other spelling of the root, somewhere among the items. -/
inductive Respelled : List Item → List Item → Prop
  | root (before after : List Item) :
    Respelled (before ++ .word "$" :: after) (before ++ .root :: after)
  | access (before key after : List Item) (hKey : remaining? 0 key = some 1) :
    Respelled (before ++ (key ++ .op .rootField :: after))
      (before ++ .root :: (key ++ .op .field :: after))

/-- The items are the tree in post-order, up to the spelling of the root. -/
def Writes (items : List Item) (e : Expr) : Prop :=
  e.Written ∧ Relation.ReflTransGen Respelled items e.postorder

variable {scope : List String} {index : Nat} {stack stack' final : List Expr} {item : Item}
  {items : List Item} {e : Expr}

theorem inScope_of_operand {name : String} (h : operand scope name = .ok e) :
    (Item.word name).InScope scope := by
  intro hDollar
  obtain ⟨hRoot, _⟩ | ⟨_, _, hMember, _⟩ | ⟨hLiteral, _⟩ := operand_ok.mp h
  · exact .inl hRoot
  · exact .inr hMember
  · exact absurd hDollar hLiteral

theorem exists_operand {name : String} (h : (Item.word name).InScope scope) :
    ∃ e, operand scope name = .ok e := by
  by_cases hRoot : name = "$"
  · exact ⟨_, operand_ok.mpr (.inl ⟨hRoot, rfl⟩)⟩
  · by_cases hDollar : name.toList.head? = some '$'
    · exact ⟨_, operand_ok.mpr (.inr (.inl ⟨hRoot, hDollar, (h hDollar).resolve_left hRoot, rfl⟩))⟩
    · exact ⟨_, operand_ok.mpr (.inr (.inr ⟨hDollar, rfl⟩))⟩

theorem push_word {name : String} : push scope index stack (.word name) = .ok stack' ↔
    ∃ e, operand scope name = .ok e ∧ stack' = e :: stack := by
  refine bind_eq_ok.trans (exists_congr fun e => and_congr_right fun _ => ?_)
  exact ⟨fun h => by cases h; rfl, fun h => h ▸ rfl⟩

/-- What a successful push asks for, and how many operands it leaves. -/
theorem push_ok (h : push scope index stack item = .ok stack') :
    item.arity ≤ stack.length ∧ item.InScope scope ∧
      stack'.length = stack.length - item.arity + 1 := by
  cases item with
  | word name =>
    obtain ⟨e, hOperand, rfl⟩ := push_word.mp h
    exact ⟨Nat.zero_le _, inScope_of_operand hOperand, rfl⟩
  | element => cases h; exact ⟨Nat.zero_le _, trivial, rfl⟩
  | root => cases h; exact ⟨Nat.zero_le _, trivial, rfl⟩
  | op o =>
    obtain ⟨hFixity, e, a, b, rest, rfl, rfl, _⟩ | ⟨hFixity, e, a, rest, rfl, rfl, _⟩ :=
      reduce_ok h
    · simp [Item.arity, hFixity, Item.InScope]
    · simp [Item.arity, hFixity, Item.InScope]

/-- A push looks only at the operands that the item takes. -/
theorem exists_push {above : List Expr} (hArity : item.arity ≤ above.length)
    (hScope : item.InScope scope) : ∃ top, top.length = above.length - item.arity + 1 ∧
      ∀ index below, push scope index (above ++ below) item = .ok (top ++ below) := by
  cases item with
  | word name =>
    obtain ⟨e, hOperand⟩ := exists_operand hScope
    exact ⟨e :: above, rfl, fun _ _ => push_word.mpr ⟨e, hOperand, rfl⟩⟩
  | element => exact ⟨.element :: above, rfl, fun _ _ => rfl⟩
  | root => exact ⟨.root :: above, rfl, fun _ _ => rfl⟩
  | op o =>
    by_cases hFixity : o.fixity = .between
    · rw [Item.arity, Operator.arity_of_between hFixity] at hArity ⊢
      obtain _ | ⟨b, _ | ⟨a, rest⟩⟩ := above
      · simp at hArity
      · simp at hArity
      · obtain ⟨e, hTree⟩ := Expr.exists_binary? a b hFixity
        exact ⟨e :: rest, rfl, fun index below => reduce_binary hTree hFixity index (rest ++ below)⟩
    · rw [Item.arity, Operator.arity_of_not_between hFixity] at hArity ⊢
      obtain _ | ⟨a, rest⟩ := above
      · simp at hArity
      · obtain ⟨e, hTree⟩ := Expr.exists_unary? a hFixity
        exact ⟨e :: rest, rfl, fun index below => reduce_unary hTree hFixity index (rest ++ below)⟩

theorem pushAll_ok (h : pushAll scope index stack items = .ok final) :
    remaining? stack.length items = some final.length ∧ ∀ item ∈ items, item.InScope scope := by
  induction items generalizing index stack with
  | nil => cases h; exact ⟨rfl, by simp⟩
  | cons item rest ih =>
    obtain ⟨middle, hItem, hRest⟩ := pushAll_cons_ok.mp h
    obtain ⟨hArity, hScope, hLength⟩ := push_ok hItem
    obtain ⟨hRemaining, hScopeRest⟩ := ih hRest
    refine ⟨?_, List.forall_mem_cons.mpr ⟨hScope, hScopeRest⟩⟩
    rw [remaining?_cons hArity, ← hLength]
    exact hRemaining

theorem exists_pushAll {above : List Expr} {count : Nat}
    (h : remaining? above.length items = some count) (hScope : ∀ item ∈ items, item.InScope scope) :
    ∃ top, top.length = count ∧
      ∀ index below, pushAll scope index (above ++ below) items = .ok (top ++ below) := by
  induction items generalizing above with
  | nil => cases h; exact ⟨above, rfl, fun _ _ => rfl⟩
  | cons item rest ih =>
    obtain ⟨hItem, hRest⟩ := List.forall_mem_cons.mp hScope
    rw [remaining?] at h
    split at h
    · cases h
    · rename_i hArity
      obtain ⟨middle, hLength, hPush⟩ := exists_push (Nat.le_of_not_lt hArity) hItem
      rw [← hLength] at h
      obtain ⟨top, hTop, hPushAll⟩ := ih h hRest
      refine ⟨top, hTop, fun index below => ?_⟩
      exact pushAll_cons_ok.mpr ⟨_, hPush index below, hPushAll (index + 1) below⟩

/-- Items that leave one operand where there was none are an operand, whatever is below. -/
theorem exists_leaves (h : remaining? 0 items = some 1)
    (hScope : ∀ item ∈ items, item.InScope scope) : ∃ e, Leaves scope items e := by
  have hNone : remaining? ([] : List Expr).length items = some 1 := h
  obtain ⟨top, hLength, hTop⟩ := exists_pushAll hNone hScope
  obtain ⟨e, rfl⟩ := List.length_eq_one_iff.mp hLength
  exact ⟨e, hTop⟩

theorem Respelled.append_right {xs ys : List Item} (h : Respelled xs ys) (after : List Item) :
    Respelled (xs ++ after) (ys ++ after) := by
  cases h with
  | root before after' => simpa using Respelled.root before (after' ++ after)
  | access before key after' hKey => simpa using Respelled.access before key (after' ++ after) hKey

theorem Respelled.inScope {xs ys : List Item} (h : Respelled xs ys)
    (hScope : ∀ item ∈ xs, item.InScope scope) : ∀ item ∈ ys, item.InScope scope := by
  cases h with
  | root before after =>
    simp only [List.forall_mem_append, List.forall_mem_cons] at hScope ⊢
    exact ⟨hScope.1, trivial, hScope.2.2⟩
  | access before key after _ =>
    simp only [List.forall_mem_append, List.forall_mem_cons] at hScope ⊢
    exact ⟨hScope.1, trivial, hScope.2.1, trivial, hScope.2.2.2⟩

/-- The index is only for faults. -/
theorem pushAll_index (h : pushAll scope index stack items = .ok final) (index' : Nat) :
    pushAll scope index' stack items = .ok final := by
  obtain ⟨hRemaining, hScope⟩ := pushAll_ok h
  obtain ⟨top, _, hTop⟩ := exists_pushAll hRemaining hScope
  have hFinal := hTop index []
  have hOther := hTop index' []
  rw [List.append_nil, List.append_nil] at hFinal hOther
  rw [h] at hFinal
  rw [hOther, hFinal]

theorem Leaves.pushAll {xs : List Item} (h : Leaves scope xs e) (index : Nat) (stack : List Expr)
    (ys : List Item) : Expression.pushAll scope index stack (xs ++ ys) =
      Expression.pushAll scope (index + xs.length) (e :: stack) ys := by
  rw [pushAll_append, h index stack]
  rfl

theorem Respelled.pushAll {xs ys : List Item} (h : Respelled xs ys)
    (hPush : Expression.pushAll scope index stack ys = .ok final) :
    Expression.pushAll scope index stack xs = .ok final := by
  cases h with
  | root before after =>
    obtain ⟨middle, hBefore, hAfter⟩ := pushAll_append_ok.mp hPush
    exact pushAll_append_ok.mpr ⟨middle, hBefore, hAfter⟩
  | access before key after hKey =>
    have hScope := (pushAll_ok hPush).2
    simp only [List.forall_mem_append, List.forall_mem_cons] at hScope
    obtain ⟨a, hLeaves⟩ := exists_leaves hKey hScope.2.2.1
    have hField : Leaves scope ([.root] ++ (key ++ [.op .field])) (.field .root a) :=
      .two rfl (fun _ _ => rfl) hLeaves
    obtain ⟨middle, hBefore, hAfter⟩ := pushAll_append_ok.mp hPush
    refine pushAll_append_ok.mpr ⟨middle, hBefore, ?_⟩
    have hResult := (hField.pushAll _ middle after).symm.trans (by simpa using hAfter)
    rw [List.append_cons, hLeaves.access.pushAll]
    exact pushAll_index hResult _

theorem pushAll_of_respelled {xs ys : List Item} (h : Relation.ReflTransGen Respelled xs ys)
    (hPush : pushAll scope index stack ys = .ok final) :
    pushAll scope index stack xs = .ok final := by
  induction h with
  | refl => exact hPush
  | tail _ hLast ih => exact ih (hLast.pushAll hPush)

theorem inScope_of_respelled {xs ys : List Item} (h : Relation.ReflTransGen Respelled xs ys)
    (hScope : ∀ item ∈ xs, item.InScope scope) : ∀ item ∈ ys, item.InScope scope := by
  induction h with
  | refl => exact hScope
  | tail _ hLast ih => exact hLast.inScope ih

theorem leaves_postorder (h : e.Written) (hScope : ∀ item ∈ e.postorder, item.InScope scope) :
    Leaves scope e.postorder e := by
  induction h with
  | root => exact fun _ _ => rfl
  | element => exact fun _ _ => rfl
  | literal s hWord =>
    have hOperand : operand scope s = .ok _ := operand_ok.mpr (.inr (.inr ⟨hWord, rfl⟩))
    exact fun _ _ => pushAll_singleton.trans (push_word.mpr ⟨_, hOperand, rfl⟩)
  | var name hDollar hRoot =>
    have hMember := (List.forall_mem_singleton.mp hScope hDollar).resolve_left hRoot
    have hOperand := operand_ok.mpr (.inr (.inl ⟨hRoot, hDollar, hMember, rfl⟩))
    exact fun _ _ => pushAll_singleton.trans (push_word.mpr ⟨_, hOperand, rfl⟩)
  | one hShape _ ih =>
    rw [Expr.postorder_of_one hShape] at hScope ⊢
    exact .one hShape (ih (List.forall_mem_append.mp hScope).1)
  | two hShape _ _ iha ihb =>
    rw [Expr.postorder_of_two hShape] at hScope ⊢
    obtain ⟨hOperands, _⟩ := List.forall_mem_append.mp hScope
    obtain ⟨hScopeA, hScopeB⟩ := List.forall_mem_append.mp hOperands
    rw [List.append_assoc]
    exact .two hShape (iha hScopeA) (ihb hScopeB)

theorem hereditary_written (scope : List String) : Hereditary scope Expr.Written where
  operand name e h := by
    obtain ⟨_, rfl⟩ | ⟨hRoot, hDollar, _, rfl⟩ | ⟨hWord, rfl⟩ := operand_ok.mp h
    · exact .root
    · exact .var name hDollar hRoot
    · exact .literal name hWord
  element := .element
  root := .root
  binary _ _ _ _ hTree ha hb := .two (Expr.shape_of_binary? ha.isWhole hTree) ha hb
  unary _ _ _ hTree ha := by
    obtain ⟨_, rfl⟩ | hShape := Expr.shape_of_unary? hTree
    · exact .two rfl .root ha
    · exact .one hShape ha

theorem remaining?_postorder (h : e.Written) (count : Nat) (rest : List Item) :
    remaining? count (e.postorder ++ rest) = remaining? (count + 1) rest := by
  induction h generalizing count rest with
  | root => rfl
  | element => rfl
  | literal s _ => rfl
  | var name _ _ => rfl
  | one hShape _ ih =>
    have hArity := Operator.arity_of_not_between (Expr.fixity_of_one hShape)
    rw [Expr.postorder_of_one hShape, List.append_assoc, ih]
    refine (remaining?_cons ?_ rest).trans ?_ <;> simp [Item.arity, hArity]
  | two hShape _ _ iha ihb =>
    have hArity := Operator.arity_of_between (Expr.binary?_of_shape hShape).2
    rw [Expr.postorder_of_two hShape, List.append_assoc, List.append_assoc, iha, ihb]
    refine (remaining?_cons ?_ rest).trans ?_ <;> simp [Item.arity, hArity]

/-- The trees of the operands, written out from the lowest to the top. -/
def written (stack : List Expr) : List Item := stack.reverse.flatMap Expr.postorder

@[simp]
theorem written_cons (e : Expr) (stack : List Expr) :
    written (e :: stack) = written stack ++ e.postorder := by
  simp [written]

theorem push_written (h : push scope index stack item = .ok stack')
    (hStack : ∀ e ∈ stack, e.Written) :
    Relation.ReflTransGen Respelled (written stack ++ [item]) (written stack') := by
  cases item with
  | word name =>
    obtain ⟨e, hOperand, rfl⟩ := push_word.mp h
    rw [written_cons]
    obtain ⟨rfl, rfl⟩ | ⟨_, _, _, rfl⟩ | ⟨_, rfl⟩ := operand_ok.mp hOperand
    · exact .single (.root _ [])
    · exact .refl
    · exact .refl
  | element | root =>
    cases h
    simpa [Expr.postorder] using Relation.ReflTransGen.refl
  | op o =>
    obtain ⟨_, e, a, b, rest, rfl, rfl, hTree⟩ | ⟨_, e, a, rest, rfl, rfl, hTree⟩ := reduce_ok h
    · have ha := hStack a (by simp)
      have hShape := Expr.shape_of_binary? ha.isWhole hTree
      simp only [written_cons, Expr.postorder_of_two hShape, List.append_assoc]
      exact .refl
    · have ha := hStack a (by simp)
      rw [written_cons, written_cons]
      obtain ⟨rfl, rfl⟩ | hShape := Expr.shape_of_unary? hTree
      · have hKey : remaining? 0 a.postorder = some 1 := by
          simpa [remaining?] using remaining?_postorder ha 0 []
        have hAccess := Respelled.access (written rest) a.postorder [] hKey
        simpa [Expr.postorder] using Relation.ReflTransGen.single hAccess
      · rw [Expr.postorder_of_one hShape, List.append_assoc]

theorem pushAll_written (h : pushAll scope index stack items = .ok final)
    (hStack : ∀ e ∈ stack, e.Written) :
    Relation.ReflTransGen Respelled (written stack ++ items) (written final) := by
  induction items generalizing index stack with
  | nil => cases h; rw [List.append_nil]
  | cons item rest ih =>
    obtain ⟨middle, hItem, hRest⟩ := pushAll_cons_ok.mp h
    have hFirst := (push_written hItem hStack).lift (· ++ rest) fun _ _ hStep =>
      hStep.append_right rest
    have hMiddle := (hereditary_written scope).push hItem hStack
    rw [List.append_cons]
    exact hFirst.trans (ih hRest hMiddle)

/-- One operand is left exactly if all words are in scope and the items are its tree. -/
theorem pushAll_iff_writes : pushAll scope 0 [] items = .ok [e] ↔
    (∀ item ∈ items, item.InScope scope) ∧ Writes items e := by
  constructor
  · intro h
    have hWritten := (hereditary_written scope).pushAll h (by simp) e List.mem_cons_self
    exact ⟨(pushAll_ok h).2, hWritten, by simpa [written] using pushAll_written h (by simp)⟩
  · rintro ⟨hScope, hWritten, hItems⟩
    have hLeaves := leaves_postorder hWritten (inScope_of_respelled hItems hScope)
    exact pushAll_of_respelled hItems (hLeaves 0 [])

/--
A postorder is accepted exactly if each operator finds its operands, one operand is left, all
variables are in scope and the tree is closed; and what is built is the tree that the items write.
-/
theorem build_iff_writes (scope : List String) (items : List Item) :
    ((∃ e, build scope items = .ok e) ↔
      remaining? 0 items = some 1 ∧ (∀ item ∈ items, item.InScope scope) ∧
        ∀ e, Writes items e → e.usesElement = false) ∧
    ∀ e, build scope items = .ok e ↔
      (∀ item ∈ items, item.InScope scope) ∧ Writes items e ∧ e.usesElement = false := by
  refine ⟨⟨?_, ?_⟩, ?_⟩
  · rintro ⟨e, h⟩
    obtain ⟨hPush, hElement⟩ := build_ok.mp h
    obtain ⟨hRemaining, hScope⟩ := pushAll_ok hPush
    refine ⟨hRemaining, hScope, fun e' hWrites => ?_⟩
    have hPush' := pushAll_iff_writes.mpr ⟨hScope, hWrites⟩
    rw [hPush] at hPush'
    cases hPush'
    exact hElement
  · rintro ⟨hRemaining, hScope, hElement⟩
    obtain ⟨e, hLeaves⟩ := exists_leaves hRemaining hScope
    have hPush := hLeaves 0 []
    exact ⟨e, build_ok.mpr ⟨hPush, hElement e (pushAll_iff_writes.mp hPush).2⟩⟩
  · intro e
    rw [build_ok, pushAll_iff_writes, and_assoc]

/-- The items of `.k *. $` in both spellings. -/
example :
    let e := Expr.search (.field .root (.literal (.string "k"))) .root
    build [] [.word "k", .op .rootField, .word "$", .op .search] = .ok e ∧
      e.postorder = [.root, .word "k", .op .field, .root, .op .search] :=
  ⟨rfl, rfl⟩

end Expression

end Reshape
