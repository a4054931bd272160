import Mathlib.Data.List.Sigma
import Reshape.Proofs.Expression.Origin
import Reshape.Proofs.Expression.Shape

/-!
# The index of a fault

A fault that names an operator is found among the tokens or among the items of the postorder. In the
first case its index is that of the operator's token. In the second it counts items, from which the
parentheses and commas are gone and in which operators stand behind their operands.
-/

namespace Reshape.Expression

/-- The operator that a problem names. -/
def Problem.operator? : Problem → Option Operator
  | missingLeftOperand o => some o
  | unexpectedOperator o => some o
  | missingOperand o => some o
  | _ => none

namespace Postorder

theorem stepBefore_error {st : State} {o : Operator} {next : Option Token} {fault : Fault}
    (h : stepBefore st o next = .error fault) :
    o.isDot = false ∧ fault = .malformed st.index (.missingLeftOperand o) := by
  cases hNext : next.any Token.startsOperand <;> cases o <;>
    simp [stepBefore, Operator.fixity, hNext] at h <;> exact ⟨rfl, h.symm⟩

theorem stepBehind_error {st : State} {o : Operator} {fault : Fault}
    (h : stepBehind st o = .error fault) :
    fault = .malformed st.index (.unexpectedOperator o) := by
  unfold stepBehind at h
  split at h
  · cases h; rfl
  · cases h

theorem step_error {st : State} {next : Option Token} {token : Token} {index : Nat}
    {problem : Problem} {o : Operator} (h : step st next token = .error (.malformed index problem))
    (hOperator : problem.operator? = some o) : problem ≠ .missingOperand o ∧ index = st.index ∧
      token.item? st.expecting next = some (.op o) := by
  cases token with
  | word text => cases h
  | element => cases h
  | openGroup => cases h
  | closeGroup | comma =>
    cases hFlush : flushGroup? st.stack with
    | none => simp only [step, hFlush] at h; cases h; cases hOperator
    | some flushed => simp [step, hFlush] at h
  | op o' =>
    rw [step] at h
    split at h
    · rename_i hExpecting
      obtain ⟨hDot, hFault⟩ := stepBefore_error h
      cases hFault
      cases hOperator
      exact ⟨by simp, rfl, by simp [Token.item?, hDot]⟩
    · rename_i hExpecting
      cases stepBehind_error h
      cases hOperator
      exact ⟨by simp, rfl, by simp [Token.item?, hExpecting]⟩

theorem run_error {st : State} {tokens : List Token} {index : Nat} {problem : Problem}
    {o : Operator} (h : run st tokens = .error (.malformed index problem))
    (hOperator : problem.operator? = some o) : problem ≠ .missingOperand o ∧
      ∃ k, index = st.index + k ∧ (itemsFrom st.expecting tokens)[k]? = some (some (.op o)) := by
  induction tokens generalizing st with
  | nil => cases h
  | cons token rest ih =>
    cases hStep : step st rest.head? token with
    | error fault =>
      rw [run, hStep] at h
      cases h
      obtain ⟨hProblem, hIndex, hItem⟩ := step_error hStep hOperator
      exact ⟨hProblem, 0, hIndex, by rw [itemsFrom, hItem]; rfl⟩
    | ok st' =>
      rw [run_of_step hStep] at h
      obtain ⟨hProblem, k, hIndex, hItem⟩ := ih h
      have hMove := step_ok hStep
      rw [hMove.index_eq] at hIndex
      rw [hMove.expecting_eq] at hItem
      exact ⟨hProblem, k + 1, by omega, by rw [itemsFrom]; exact hItem⟩

end Postorder

theorem postorder_error {tokens : List Token} {index : Nat} {problem : Problem} {o : Operator}
    (h : postorder tokens = .error (.malformed index problem))
    (hOperator : problem.operator? = some o) :
    problem ≠ .missingOperand o ∧ (itemsOf tokens)[index]? = some (some (.op o)) := by
  cases hRun : Postorder.run .start tokens with
  | error fault =>
    rw [postorder, hRun] at h
    cases h
    obtain ⟨hProblem, k, hIndex, hItem⟩ := Postorder.run_error hRun hOperator
    rw [show Postorder.State.start.index = 0 from rfl, Nat.zero_add] at hIndex
    rw [hIndex]
    exact ⟨hProblem, hItem⟩
  | ok final =>
    have hFinish : Postorder.finish final = .error (.malformed index problem) := by
      rw [postorder, hRun] at h
      exact h
    unfold Postorder.finish at hFinish
    split at hFinish
    · cases hFinish; cases hOperator
    · cases hFinish

theorem reduce_error {index : Nat} {o : Operator} {stack : List Expr} {fault : Fault}
    (h : reduce index o stack = .error fault) : fault = .malformed index (.missingOperand o) := by
  unfold reduce at h
  split at h
  · cases h; rfl
  · split at h
    · cases h
    · cases h; rfl

theorem operand_error {scope : List String} {word : String} {fault : Fault}
    (h : operand scope word = .error fault) : fault = .undefinedVariable word := by
  unfold operand at h
  split at h
  · cases h
  · split at h
    · split at h
      · cases h
      · cases h; rfl
    · cases h

theorem push_error {scope : List String} {start index : Nat} {stack : List Expr} {item : Item}
    {problem : Problem} (h : push scope start stack item = .error (.malformed index problem)) :
    ∃ o, item = .op o ∧ index = start ∧ problem = .missingOperand o := by
  cases item with
  | word text =>
    cases hOperand : operand scope text with
    | error fault =>
      rw [push, hOperand] at h
      cases operand_error hOperand
      cases h
    | ok e => rw [push, hOperand] at h; cases h
  | element => cases h
  | root => cases h
  | op o => cases reduce_error h; exact ⟨o, rfl, rfl, rfl⟩

theorem pushAll_error {scope : List String} {start index : Nat} {stack : List Expr}
    {items : List Item} {problem : Problem}
    (h : pushAll scope start stack items = .error (.malformed index problem)) :
    ∃ o k, index = start + k ∧ items[k]? = some (.op o) ∧ problem = .missingOperand o := by
  induction items generalizing start stack with
  | nil => cases h
  | cons item rest ih =>
    cases hItem : push scope start stack item with
    | error fault =>
      rw [pushAll, hItem] at h
      cases h
      obtain ⟨o, rfl, rfl, hProblem⟩ := push_error hItem
      exact ⟨o, 0, rfl, rfl, hProblem⟩
    | ok stack' =>
      rw [pushAll, hItem] at h
      obtain ⟨o, k, rfl, hRest, hProblem⟩ := ih h
      exact ⟨o, k + 1, by omega, hRest, hProblem⟩

theorem build_error {scope : List String} {items : List Item} {index : Nat} {problem : Problem}
    {o : Operator} (h : build scope items = .error (.malformed index problem))
    (hOperator : problem.operator? = some o) :
    problem = .missingOperand o ∧ items[index]? = some (.op o) := by
  cases hPush : pushAll scope 0 [] items with
  | error fault =>
    rw [build, hPush] at h
    cases h
    obtain ⟨o', k, rfl, hItem, rfl⟩ := pushAll_error hPush
    cases hOperator
    rw [Nat.zero_add]
    exact ⟨rfl, hItem⟩
  | ok stack =>
    rw [build, hPush] at h
    match stack, h with
    | [], h => cases h
    | [e], h =>
      cases hElement : e.usesElement <;> simp [hElement, bind, Except.bind] at h
    | _ :: _ :: _, h => cases h; cases hOperator

/-- The origin of an item: the index of the token and what the token stands for. -/
theorem exists_origin {tokens : List Token} {items : List Item} {index : Nat} {item : Item}
    (h : postorder tokens = .ok items) (hItem : items[index]? = some item) :
    ∃ k, (origins tokens)[index]? = some (some item, k) ∧
      (itemsOf tokens)[k]? = some (some item) := by
  obtain ⟨hItems, hPerm⟩ := origins_postorder h
  have hFirst : ((origins tokens).map Prod.fst)[index]? = some (some item) := by
    rw [hItems, List.getElem?_map, hItem]
    rfl
  rw [List.getElem?_map] at hFirst
  obtain ⟨⟨_, k⟩, hOrigin, rfl⟩ := Option.map_eq_some_iff.mp hFirst
  have hMember := hPerm.mem_iff.mp (List.mem_of_getElem? hOrigin)
  exact ⟨k, hOrigin, List.mem_zipIdx_iff_getElem?.mp (List.mem_filter.mp hMember).1⟩

theorem countP_zipIdx_lt {α : Type} (p : α → Bool) (xs : List α) (start k : Nat) :
    ((xs.zipIdx start).filter fun x => p x.1).countP (fun x => decide (x.2 < start + k)) =
      (xs.take k).countP p := by
  induction xs generalizing start k with
  | nil => cases k <;> rfl
  | cons x xs ih =>
    cases k with
    | zero =>
      rw [List.take_zero, List.countP_nil, List.countP_eq_zero]
      intro y hy
      have hLe := List.le_snd_of_mem_zipIdx (List.mem_filter.mp hy).1
      simpa using hLe
    | succ k =>
      have hRest := ih (start + 1) k
      rw [Nat.add_assoc, Nat.add_comm 1] at hRest
      rw [List.zipIdx_cons, List.take_succ_cons, List.countP_cons, List.filter_cons]
      split <;> simp_all

/-- How many tokens behind the `k`th are put out before the item at `index`. -/
def countEarly (tokens : List Token) (index k : Nat) : Nat :=
  ((origins tokens).take index).countP fun x => decide (k < x.2)

/-- How many tokens before the `k`th are put out behind the item at `index`. -/
def countLate (tokens : List Token) (index k : Nat) : Nat :=
  ((origins tokens).drop (index + 1)).countP fun x => decide (x.2 < k)

theorem nodup_origins {tokens : List Token} {items : List Item} (h : postorder tokens = .ok items) :
    ((origins tokens).map Prod.snd).Nodup := by
  have hPerm := (origins_postorder h).2.map Prod.snd
  refine hPerm.nodup_iff.mpr ?_
  exact (List.nodup_zipIdx_map_snd _).sublist (List.filter_sublist.map Prod.snd)

/-- What is put out before an item comes from tokens before or behind the item's own token. -/
theorem countP_add_countEarly {tokens : List Token} {items : List Item} {index k : Nat}
    {item : Option Item} {late : List Origin} (h : postorder tokens = .ok items)
    (hSplit : origins tokens = (origins tokens).take index ++ (item, k) :: late) :
    ((origins tokens).take index).countP (fun x => decide (x.2 < k)) + countEarly tokens index k =
      ((origins tokens).take index).length := by
  have hNodup := nodup_origins h
  rw [hSplit, List.map_append, List.map_cons] at hNodup
  have hOther : ∀ x ∈ (origins tokens).take index, x.2 ≠ k := by
    rintro x hx rfl
    have hNot := (List.nodup_cons.mp (List.nodup_middle.mp hNodup)).1
    exact hNot (List.mem_append_left _ (List.mem_map.mpr ⟨x, hx, rfl⟩))
  rw [List.length_eq_countP_add_countP (fun x => decide (x.2 < k)), countEarly]
  refine congrArg _ (List.countP_congr fun x hx => ?_)
  have hNe := hOther x hx
  simp only [decide_eq_true_eq, decide_not, Bool.not_eq_true', decide_eq_false_iff_not]
  omega

theorem index_add_eq {tokens : List Token} {items : List Item} {index k : Nat}
    {item : Option Item} (h : postorder tokens = .ok items)
    (hOrigin : (origins tokens)[index]? = some (item, k)) (hToken : k < tokens.length) :
    index + ((tokens.take k).countP Token.isPunctuation + countLate tokens index k) =
      k + countEarly tokens index k := by
  obtain ⟨hIndex, hGet⟩ := List.getElem?_eq_some_iff.mp hOrigin
  have hSplit : origins tokens =
      (origins tokens).take index ++ (item, k) :: (origins tokens).drop (index + 1) := by
    rw [← hGet, List.getElem_cons_drop, List.take_append_drop]
  have hBefore : ((origins tokens).take index).countP (fun x => decide (x.2 < k)) +
      countLate tokens index k = ((itemsOf tokens).take k).countP Option.isSome := by
    have hCount := countP_zipIdx_lt Option.isSome (itemsOf tokens) 0 k
    rw [Nat.zero_add, ← (origins_postorder h).2.countP_eq, hSplit, List.countP_append,
      List.countP_cons_of_neg (by simp)] at hCount
    exact hCount
  have hEarly := countP_add_countEarly h hSplit
  have hTokens := countP_take_itemsOf tokens k
  rw [List.length_take_of_le (Nat.le_of_lt hIndex)] at hEarly
  rw [List.length_take_of_le (Nat.le_of_lt hToken)] at hTokens
  omega

/--
The index of the token whose operator a problem names. One that misses an operand is found among
the items.
-/
def culprit? (tokens : List Token) (index : Nat) : Problem → Option Nat
  | .missingOperand _ => (origins tokens)[index]?.map Prod.snd
  | _ => some index

theorem read_of_ofText {text : String} {tokens : List Token} (h : Token.ofText text = .ok tokens)
    (scope : List String) : read scope text = postorder tokens >>= build scope := by
  rw [read, h]
  rfl

/--
A fault that names an operator has the index of the operator's token unless an operand is missing.
Then it has that index just if as many tokens behind the operator are put out before it as before
it there are parentheses, commas and tokens that are put out behind it.
-/
theorem read_fault_index_iff {scope : List String} {text : String} {tokens : List Token}
    {index : Nat} {problem : Problem} {o : Operator} (hTokens : Token.ofText text = .ok tokens)
    (hRead : read scope text = .error (.malformed index problem))
    (hOperator : problem.operator? = some o) :
    index < tokens.length ∧ ∃ k, culprit? tokens index problem = some k ∧
      (itemsOf tokens)[k]? = some (some (.op o)) ∧
      (index = k ↔ problem ≠ .missingOperand o ∨
        countEarly tokens index k =
          (tokens.take k).countP Token.isPunctuation + countLate tokens index k) := by
  rw [read_of_ofText hTokens] at hRead
  cases hItems : postorder tokens with
  | error fault =>
    rw [hItems] at hRead
    cases hRead
    obtain ⟨hProblem, hItem⟩ := postorder_error hItems hOperator
    have hIndex := (List.getElem?_eq_some_iff.mp hItem).1
    rw [length_itemsOf] at hIndex
    have hCulprit : culprit? tokens index problem = some index := by
      cases problem with
      | missingOperand o' => cases hOperator; exact absurd rfl hProblem
      | _ => rfl
    exact ⟨hIndex, index, hCulprit, hItem, iff_of_true rfl (.inl hProblem)⟩
  | ok items =>
    rw [hItems] at hRead
    obtain ⟨rfl, hItem⟩ := build_error hRead hOperator
    obtain ⟨k, hOrigin, hToken⟩ := exists_origin hItems hItem
    have hIndex := (List.getElem?_eq_some_iff.mp hItem).1
    have hLength := length_postorder hItems
    have hBound := (List.getElem?_eq_some_iff.mp hToken).1
    rw [length_itemsOf] at hBound
    have hAdd := index_add_eq hItems hOrigin hBound
    refine ⟨by omega, k, by rw [culprit?, hOrigin]; rfl, hToken, ?_⟩
    constructor
    · intro hSame
      exact .inr (by omega)
    · rintro (hProblem | hCount)
      · exact absurd rfl hProblem
      · omega

/-- In `(a) | b +` two tokens come in front of `|`, as many as there are parentheses before it. -/
theorem read_fault_index_iff_group :
    let tokens := [.openGroup, .word "a", .closeGroup, .op .or, .word "b", .op .add]
    Token.ofText "(a) | b +" = .ok tokens ∧
      read [] "(a) | b +" = .error (.malformed 3 (.missingOperand .or)) ∧
      (Problem.missingOperand .or).operator? = some .or ∧
      3 < tokens.length ∧ ∃ k, culprit? tokens 3 (.missingOperand .or) = some k ∧
        (itemsOf tokens)[k]? = some (some (.op .or)) ∧
        (3 = k ↔ Problem.missingOperand .or ≠ .missingOperand .or ∨
          countEarly tokens 3 k =
            (tokens.take k).countP Token.isPunctuation + countLate tokens 3 k) := by
  intro tokens
  have hTokens : Token.ofText "(a) | b +" = .ok tokens := by cbv
  have hRead : read [] "(a) | b +" = .error (.malformed 3 (.missingOperand .or)) :=
    (read_of_ofText hTokens []).trans rfl
  have hOperator : (Problem.missingOperand .or).operator? = some .or := rfl
  exact ⟨hTokens, hRead, hOperator, read_fault_index_iff hTokens hRead hOperator⟩

/-- The fault of `(a) +` names `+`, the token with index 3, but has the index of the word. -/
theorem read_fault_index_word :
    let tokens := [.openGroup, .word "a", .closeGroup, .op .add]
    Token.ofText "(a) +" = .ok tokens ∧
      read [] "(a) +" = .error (.malformed 1 (.missingOperand .add)) ∧
      tokens[1]? = some (.word "a") := by
  intro tokens
  have hTokens : Token.ofText "(a) +" = .ok tokens := by cbv
  exact ⟨hTokens, (read_of_ofText hTokens []).trans rfl, rfl⟩

end Reshape.Expression
