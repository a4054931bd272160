import Reshape.Expression.Postorder
import Reshape.Proofs.Except

/-!
# What one step of the postorder does

Each flush cuts the stack into operators and the rest, and a step that succeeds is one of eight
moves. Whether an operand must come next depends on the tokens alone.
-/

namespace Reshape

def Operator.isDot (o : Operator) : Bool := o == .field || o == .rootField

theorem Operator.expectsOperand_of_isDot {o : Operator} (h : o.isDot = true) :
    o.expectsOperand = true := by
  cases o <;> first | rfl | cases h

namespace Expression

/--
Whether an operand must come behind a token, given whether one had to come in its place and the
token behind it. A dot in the place of an operand waits for one only if one can begin.
-/
def Token.awaits (expecting : Bool) (next : Option Token) : Token → Bool
  | .word _ => false
  | .element => false
  | .openGroup => true
  | .closeGroup => false
  | .comma => true
  | .op o =>
    if expecting then !o.isDot || next.any Token.startsOperand else o.expectsOperand

namespace Postorder

@[simp]
theorem flushGroup?_append (os : List Operator) (below : List Waiting) :
    flushGroup? (os.map .op ++ .group :: below) = some (os, .group :: below) := by
  induction os with
  | nil => rfl
  | cons o os ih => simp [flushGroup?, ih]

theorem eq_of_flushGroup? {stack : List Waiting} {os : List Operator} {rest : List Waiting}
    (h : flushGroup? stack = some (os, rest)) :
    ∃ below, rest = .group :: below ∧ stack = os.map .op ++ .group :: below := by
  induction stack generalizing os with
  | nil => cases h
  | cons waiting stack ih =>
    cases waiting with
    | group => cases h; exact ⟨stack, rfl, rfl⟩
    | op o =>
      obtain ⟨⟨os', rest'⟩, hRest, hResult⟩ := Option.map_eq_some_iff.mp h
      cases hResult
      obtain ⟨below, hBelow, hStack⟩ := ih hRest
      exact ⟨below, hBelow, by rw [hStack]; rfl⟩

@[simp]
theorem flushAll?_map (os : List Operator) : flushAll? (os.map .op) = some os := by
  induction os with
  | nil => rfl
  | cons o os ih => simp [flushAll?, ih]

theorem eq_of_flushAll? {stack : List Waiting} {os : List Operator}
    (h : flushAll? stack = some os) : stack = os.map .op := by
  induction stack generalizing os with
  | nil => cases h; rfl
  | cons waiting stack ih =>
    cases waiting with
    | group => cases h
    | op o =>
      obtain ⟨os', hRest, hResult⟩ := Option.map_eq_some_iff.mp h
      cases hResult
      rw [ih hRest]
      rfl

theorem flushTighter_append (o : Operator) (stack : List Waiting) :
    stack = (flushTighter o stack).1.map .op ++ (flushTighter o stack).2 := by
  induction stack with
  | nil => rfl
  | cons waiting stack ih =>
    cases waiting with
    | group => rfl
    | op top =>
      rw [flushTighter]
      split
      · simpa using ih
      · rfl

theorem lt_of_flushTighter {o top : Operator} {stack below : List Waiting} {os : List Operator}
    (h : flushTighter o stack = (os, .op top :: below)) : o.precedence < top.precedence := by
  induction stack generalizing os with
  | nil => cases h
  | cons waiting stack ih =>
    cases waiting with
    | group => cases h
    | op first =>
      rw [flushTighter] at h
      split at h
      · cases hRest : flushTighter o stack with
        | mk os' below' =>
          rw [hRest] at h
          cases h
          exact ih hRest
      · rename_i hLooser
        cases h
        exact Nat.lt_of_not_le hLooser

theorem flushTighter_of_le {o : Operator} {os : List Operator}
    (h : ∀ top ∈ os, top.precedence ≤ o.precedence) (below : List Waiting) :
    flushTighter o (os.map .op ++ below) =
      (os ++ (flushTighter o below).1, (flushTighter o below).2) := by
  induction os with
  | nil => rfl
  | cons top os ih =>
    have hTop : top.precedence ≤ o.precedence := h top List.mem_cons_self
    have hRest := ih fun t ht => h t (List.mem_cons_of_mem _ ht)
    simp [flushTighter, hTop, hRest]

/-- The moves of the parser, one for each kind of token and the state that it meets. -/
inductive Step (st : State) (next : Option Token) : Token → State → Prop
  | word (text : String) :
    Step st next (.word text) ⟨st.index + 1, st.output ++ [.word text], st.stack, false⟩
  | element : Step st next .element ⟨st.index + 1, st.output ++ [.element], st.stack, false⟩
  | openGroup : Step st next .openGroup ⟨st.index + 1, st.output, .group :: st.stack, true⟩
  | closeGroup (os : List Operator) (below : List Waiting)
    (hStack : st.stack = os.map .op ++ .group :: below) :
    Step st next .closeGroup ⟨st.index + 1, st.output ++ os.map .op, below, false⟩
  | comma (os : List Operator) (below : List Waiting)
    (hStack : st.stack = os.map .op ++ .group :: below) :
    Step st next .comma ⟨st.index + 1, st.output ++ os.map .op, .group :: below, true⟩
  | root (o : Operator) (hExpecting : st.expecting = true) (hDot : o.isDot = true)
    (hNext : next.any Token.startsOperand = false) :
    Step st next (.op o) ⟨st.index + 1, st.output ++ [.root], st.stack, false⟩
  | access (o : Operator) (hExpecting : st.expecting = true) (hDot : o.isDot = true)
    (hNext : next.any Token.startsOperand = true) :
    Step st next (.op o) ⟨st.index + 1, st.output, .op .rootField :: st.stack, true⟩
  | negation (hExpecting : st.expecting = true) :
    Step st next (.op .not) ⟨st.index + 1, st.output, .op .not :: st.stack, true⟩
  | behind (o : Operator) (os : List Operator) (below : List Waiting)
    (hExpecting : st.expecting = false) (hFixity : o.fixity ≠ .before)
    (hFlush : flushTighter o st.stack = (os, below)) :
    Step st next (.op o) ⟨st.index + 1, st.output ++ os.map .op, .op o :: below, o.expectsOperand⟩

theorem step_before {st st' : State} {next : Option Token} {o : Operator}
    (hExpecting : st.expecting = true) (h : stepBefore st o next = .ok st') :
    Step st next (.op o) st' := by
  cases hNext : next.any Token.startsOperand <;> cases o <;>
    simp [stepBefore, Operator.fixity, hNext] at h <;> subst h
  case false.field => exact .root .field hExpecting rfl hNext
  case false.rootField => exact .root .rootField hExpecting rfl hNext
  case true.field => exact hExpecting ▸ .access .field hExpecting rfl hNext
  case true.rootField => exact hExpecting ▸ .access .rootField hExpecting rfl hNext
  all_goals exact hExpecting ▸ .negation hExpecting

theorem step_ok {st st' : State} {next : Option Token} {token : Token}
    (h : step st next token = .ok st') : Step st next token st' := by
  cases token with
  | word text => cases h; exact .word text
  | element => cases h; exact .element
  | openGroup => cases h; exact .openGroup
  | closeGroup =>
    cases hFlush : flushGroup? st.stack with
    | none => simp [step, hFlush] at h
    | some flushed =>
      obtain ⟨below, hBelow, hStack⟩ := eq_of_flushGroup? hFlush
      simp only [step, hFlush, hBelow, List.tail_cons] at h
      cases h
      exact .closeGroup flushed.1 below hStack
  | comma =>
    cases hFlush : flushGroup? st.stack with
    | none => simp [step, hFlush] at h
    | some flushed =>
      obtain ⟨below, hBelow, hStack⟩ := eq_of_flushGroup? hFlush
      simp only [step, hFlush, hBelow] at h
      cases h
      exact .comma flushed.1 below hStack
  | op o =>
    cases hExpecting : st.expecting with
    | true => exact step_before hExpecting (by simpa [step, hExpecting] using h)
    | false =>
      simp only [step, hExpecting, stepBehind] at h
      by_cases hFixity : o.fixity = .before
      · simp [hFixity] at h
      · simp only [hFixity, if_false] at h
        cases h
        exact .behind o _ _ hExpecting hFixity rfl

theorem Step.step_eq {st st' : State} {next : Option Token} {token : Token}
    (h : Step st next token st') : step st next token = .ok st' := by
  cases h with
  | closeGroup os below hStack => simp [step, hStack]
  | comma os below hStack => simp [step, hStack]
  | root o hExpecting hDot hNext | access o hExpecting hDot hNext =>
    cases o <;> cases hDot <;> simp [step, hExpecting, stepBefore, hNext, Operator.fixity]
  | negation hExpecting => simp [step, hExpecting, stepBefore, Operator.fixity]
  | behind o os below hExpecting hFixity hFlush =>
    simp [step, hExpecting, stepBehind, hFixity, hFlush]
  | _ => rfl

theorem Step.index_eq {st st' : State} {next : Option Token} {token : Token}
    (h : Step st next token st') : st'.index = st.index + 1 := by
  cases h <;> rfl

theorem Step.expecting_eq {st st' : State} {next : Option Token} {token : Token}
    (h : Step st next token st') : st'.expecting = token.awaits st.expecting next := by
  cases h with
  | root o hExpecting hDot hNext => simp [Token.awaits, hExpecting, hDot, hNext]
  | access o hExpecting hDot hNext => simp [Token.awaits, hExpecting, hNext]
  | negation hExpecting => simp [Token.awaits, hExpecting, Operator.isDot]
  | behind o os below hExpecting => simp [Token.awaits, hExpecting]
  | _ => rfl

theorem Step.prefix_output {st st' : State} {next : Option Token} {token : Token}
    (h : Step st next token st') : st.output <+: st'.output := by
  cases h with
  | openGroup => exact List.prefix_rfl
  | access _ _ _ _ => exact List.prefix_rfl
  | negation _ => exact List.prefix_rfl
  | _ => exact List.prefix_append _ _

theorem head?_append_any {rest tail : List Token}
    (hTail : tail.head?.any Token.startsOperand = false) :
    (rest ++ tail).head?.any Token.startsOperand = rest.head?.any Token.startsOperand := by
  cases rest with
  | nil => simpa using hTail
  | cons token rest => rfl

theorem run_of_step {st st' : State} {token : Token} {rest : List Token}
    (h : step st rest.head? token = .ok st') : run st (token :: rest) = run st' rest := by
  rw [run, h]
  rfl

theorem run_cons_ok {st final : State} {token : Token} {rest : List Token}
    (h : run st (token :: rest) = .ok final) :
    ∃ st', Step st rest.head? token st' ∧ run st' rest = .ok final := by
  obtain ⟨st', hStep, hRest⟩ := bind_eq_ok.mp h
  exact ⟨st', step_ok hStep, hRest⟩

theorem run_index {st final : State} {tokens : List Token} (h : run st tokens = .ok final) :
    final.index = st.index + tokens.length := by
  induction tokens generalizing st with
  | nil => cases h; rfl
  | cons token rest ih =>
    obtain ⟨st', hStep, hRest⟩ := run_cons_ok h
    rw [ih hRest, hStep.index_eq, List.length_cons, Nat.add_assoc, Nat.add_comm 1]

theorem prefix_run_output {st final : State} {tokens : List Token}
    (h : run st tokens = .ok final) : st.output <+: final.output := by
  induction tokens generalizing st with
  | nil => cases h; exact List.prefix_rfl
  | cons token rest ih =>
    obtain ⟨st', hStep, hRest⟩ := run_cons_ok h
    exact hStep.prefix_output.trans (ih hRest)

end Postorder

theorem postorder_of_run {tokens : List Token} {final : Postorder.State}
    (hRun : Postorder.run .start tokens = .ok final) (os : List Operator)
    (hStack : final.stack = os.map .op) : postorder tokens = .ok (final.output ++ os.map .op) := by
  have hFlush := Postorder.flushAll?_map os
  rw [← hStack] at hFlush
  refine bind_eq_ok.mpr ⟨final, hRun, ?_⟩
  rw [Postorder.finish, hFlush]

theorem postorder_ok {tokens : List Token} {items : List Item} (h : postorder tokens = .ok items) :
    ∃ (final : Postorder.State) (os : List Operator), Postorder.run .start tokens = .ok final ∧
      final.stack = os.map .op ∧ items = final.output ++ os.map .op := by
  obtain ⟨final, hRun, hFinish⟩ := bind_eq_ok.mp h
  unfold Postorder.finish at hFinish
  split at hFinish
  · cases hFinish
  · rename_i os hFlush
    cases hFinish
    exact ⟨final, os, hRun, Postorder.eq_of_flushAll? hFlush, rfl⟩

end Expression

end Reshape
