import Reshape.Proofs.Expression.Postorder

/-!
# Groups

An open group keeps what waits below it out of reach, so the parser goes through the tokens of a
group as it goes through them alone. An operator between two groups is therefore put out behind the
same items as one behind a group of two arguments.
-/

namespace Reshape.Expression

namespace Postorder

theorem flushTighter_group (o : Operator) (stack below : List Waiting) :
    flushTighter o (stack ++ .group :: below) =
      ((flushTighter o stack).1, (flushTighter o stack).2 ++ .group :: below) := by
  induction stack with
  | nil => rfl
  | cons waiting stack ih =>
    cases waiting with
    | group => rfl
    | op top =>
      rw [List.cons_append, flushTighter, flushTighter]
      split
      · rw [ih]
      · rfl

/-- The state behind other output and above an open group. -/
def State.inGroup (st : State) (index : Nat) (output : List Item) (below : List Waiting) : State :=
  ⟨index + st.index, output ++ st.output, st.stack ++ .group :: below, st.expecting⟩

theorem Step.inGroup {st st' : State} {next next' : Option Token} {token : Token}
    (h : Step st next token st')
    (hNext : next'.any Token.startsOperand = next.any Token.startsOperand) (index : Nat)
    (output : List Item) (below : List Waiting) :
    step (st.inGroup index output below) next' token = .ok (st'.inGroup index output below) := by
  cases h with
  | closeGroup os rest hStack | comma os rest hStack =>
    simp [step, State.inGroup, hStack, Nat.add_assoc]
  | root o hExpecting hDot hAlone | access o hExpecting hDot hAlone =>
    cases o <;> cases hDot <;>
      simp [step, State.inGroup, hExpecting, stepBefore, hNext, hAlone, Operator.fixity,
        Nat.add_assoc]
  | negation hExpecting =>
    simp [step, State.inGroup, hExpecting, stepBefore, Operator.fixity, Nat.add_assoc]
  | behind o os rest hExpecting hFixity hFlush =>
    simp [step, State.inGroup, hExpecting, stepBehind, hFixity, flushTighter_group, hFlush,
      Nat.add_assoc]
  | _ => simp [step, State.inGroup, Nat.add_assoc]

theorem run_inGroup {st final : State} {tokens tail : List Token} (h : run st tokens = .ok final)
    (hTail : tail.head?.any Token.startsOperand = false) (index : Nat) (output : List Item)
    (below : List Waiting) :
    run (st.inGroup index output below) (tokens ++ tail) =
      run (final.inGroup index output below) tail := by
  -- `hTail` is for a dot at the end of the tokens, which alone stands for the root.
  induction tokens generalizing st with
  | nil => cases h; rfl
  | cons token rest ih =>
    obtain ⟨st', hStep, hRest⟩ := run_cons_ok h
    rw [List.cons_append, run_of_step (hStep.inGroup (head?_append_any hTail) index output below)]
    exact ih hRest

variable {tokens : List Token} {items : List Item}

/-- What still waits when the tokens of a group are read is put out by the token that ends them. -/
theorem run_ended (h : postorder tokens = .ok items) {stop : Token} {rest : List Token}
    {below below' : List Waiting} {expecting' : Bool} (hStop : stop.startsOperand = false)
    (hStep : ∀ (index : Nat) (output : List Item) (os : List Operator) (expecting : Bool),
      Step ⟨index, output, os.map .op ++ .group :: below, expecting⟩ rest.head? stop
        ⟨index + 1, output ++ os.map .op, below', expecting'⟩)
    (index : Nat) (output : List Item) :
    run ⟨index, output, .group :: below, true⟩ (tokens ++ stop :: rest) =
      run ⟨index + tokens.length + 1, output ++ items, below', expecting'⟩ rest := by
  obtain ⟨final, os, hRun, hStack, rfl⟩ := postorder_ok h
  have hTail : (stop :: rest).head?.any Token.startsOperand = false := hStop
  have hIndex : final.index = tokens.length := by simpa [State.start] using run_index hRun
  have hGroup := run_inGroup hRun hTail index output below
  simp only [State.inGroup, State.start, hStack, hIndex, Nat.add_zero, List.append_nil,
    List.nil_append] at hGroup
  rw [hGroup, run_of_step (hStep _ _ os _).step_eq, List.append_assoc]

theorem run_closeGroup (h : postorder tokens = .ok items) (index : Nat) (output : List Item)
    (below : List Waiting) (rest : List Token) :
    run ⟨index, output, .group :: below, true⟩ (tokens ++ .closeGroup :: rest) =
      run ⟨index + tokens.length + 1, output ++ items, below, false⟩ rest :=
  run_ended h rfl (fun _ _ os _ => .closeGroup os below rfl) index output

theorem run_comma (h : postorder tokens = .ok items) (index : Nat) (output : List Item)
    (below : List Waiting) (rest : List Token) :
    run ⟨index, output, .group :: below, true⟩ (tokens ++ .comma :: rest) =
      run ⟨index + tokens.length + 1, output ++ items, .group :: below, true⟩ rest :=
  run_ended h rfl (fun _ _ os _ => .comma os below rfl) index output

/-- A whole group is an operand; what waits is as before it. -/
theorem run_group (h : postorder tokens = .ok items) (st : State) (rest : List Token) :
    run st (.openGroup :: (tokens ++ .closeGroup :: rest)) =
      run ⟨st.index + tokens.length + 2, st.output ++ items, st.stack, false⟩ rest := by
  rw [run_of_step Step.openGroup.step_eq, run_closeGroup h, Nat.add_right_comm st.index 1]

theorem run_between {o : Operator} (hFixity : o.fixity = .between) {st : State}
    (hStack : st.stack = []) (hExpecting : st.expecting = false) (rest : List Token) :
    run st (.op o :: rest) = run ⟨st.index + 1, st.output, [.op o], true⟩ rest := by
  apply run_of_step
  simp [step, stepBehind, hStack, hExpecting, hFixity, flushTighter, Operator.expectsOperand]

end Postorder

open Postorder in
/--
A group of two arguments before an operator is the same as the operator between two groups, and a
group is the same as its tokens.
-/
theorem postorder_arguments {left right : List Token} {xs ys : List Item} {o : Operator}
    (hLeft : postorder left = .ok xs) (hRight : postorder right = .ok ys)
    (hFixity : o.fixity = .between) :
    postorder (.openGroup :: left ++ .comma :: right ++ [.closeGroup, .op o]) =
        .ok (xs ++ ys ++ [.op o]) ∧
      postorder (.openGroup :: left ++ [.closeGroup, .op o, .openGroup] ++ right ++
        [.closeGroup]) = .ok (xs ++ ys ++ [.op o]) ∧
      postorder (.openGroup :: left ++ [.closeGroup]) = .ok xs := by
  simp only [List.cons_append, List.append_assoc, List.nil_append]
  refine ⟨?_, ?_, ?_⟩
  · have hRun : ∃ index, run .start
        (.openGroup :: (left ++ .comma :: (right ++ [.closeGroup, .op o]))) =
          .ok ⟨index, xs ++ ys, [.op o], true⟩ := by
      rw [run_of_step Step.openGroup.step_eq, run_comma hLeft, run_closeGroup hRight,
        run_between hFixity rfl rfl]
      exact ⟨_, rfl⟩
    obtain ⟨index, hRun⟩ := hRun
    simpa using postorder_of_run hRun [o] rfl
  · have hRun : ∃ index, run .start
        (.openGroup :: (left ++ .closeGroup :: .op o :: .openGroup :: (right ++ [.closeGroup]))) =
          .ok ⟨index, xs ++ ys, [.op o], false⟩ := by
      rw [run_group hLeft, run_between hFixity rfl rfl, run_group hRight]
      exact ⟨_, rfl⟩
    obtain ⟨index, hRun⟩ := hRun
    simpa using postorder_of_run hRun [o] rfl
  · have hRun : ∃ index, run .start (.openGroup :: (left ++ [.closeGroup])) =
        .ok ⟨index, xs, [], false⟩ := by
      rw [run_group hLeft]
      exact ⟨_, rfl⟩
    obtain ⟨index, hRun⟩ := hRun
    simpa using postorder_of_run hRun [] rfl

/-- The operands `!.a = .` and `@[].b !` of `!sortBy`: the first ends in a dot that is the root. -/
theorem postorder_arguments_root :
    let left := [.op .not, .op .field, .word "a", .op .equals, .op .field]
    let right := [.element, .op .arrayMap, .word "b", .op .not]
    let xs := [.word "a", .op .rootField, .op .not, .root, .op .equals]
    let ys := [.element, .word "b", .op .arrayMap, .op .not]
    postorder left = .ok xs ∧ postorder right = .ok ys ∧ Operator.sortBy.fixity = .between ∧
      postorder (.openGroup :: left ++ .comma :: right ++ [.closeGroup, .op .sortBy]) =
        .ok (xs ++ ys ++ [.op .sortBy]) ∧
      postorder (.openGroup :: left ++ [.closeGroup, .op .sortBy, .openGroup] ++ right ++
        [.closeGroup]) = .ok (xs ++ ys ++ [.op .sortBy]) ∧
      postorder (.openGroup :: left ++ [.closeGroup]) = .ok xs := by
  intro left right xs ys
  have hLeft : postorder left = .ok xs := rfl
  have hRight : postorder right = .ok ys := rfl
  have hFixity : Operator.sortBy.fixity = .between := rfl
  exact ⟨hLeft, hRight, hFixity, postorder_arguments hLeft hRight hFixity⟩

end Reshape.Expression
