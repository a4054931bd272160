import Reshape.Proofs.Expression.Scoped

/-!
# Renderings of trees

A rendering writes a tree with parentheses where precedence asks for them and wherever else one
likes. Reading a rendering gives the tree back. While an operand is read, the operators that wait
above those before it are its unfinished right edge, all of which bind at least as tight as it does.
-/

namespace Reshape

theorem Operator.precedence_pos (o : Operator) : 0 < o.precedence := by
  cases o <;> decide

/-- The trees that are made of words, the element and operators. -/
inductive Expr.Written : Expr → Prop
  | root : Written .root
  | element : Written .element
  | literal (s : String) (hWord : s.toList.head? ≠ some '$') : Written (.literal (.string s))
  | var (name : String) (hDollar : name.toList.head? = some '$') (hRoot : name ≠ "$") :
    Written (.var name)
  | one {e a : Expr} {o : Operator} (hShape : e.shape = .one o a) (ha : Written a) : Written e
  | two {e a b : Expr} {o : Operator} (hShape : e.shape = .two o a b) (ha : Written a)
    (hb : Written b) : Written e

namespace Expr

theorem Written.of_one {e a : Expr} {o : Operator} (hShape : e.shape = .one o a)
    (h : e.Written) : a.Written := by
  cases h with
  | one hShape' ha => rw [hShape] at hShape'; cases hShape'; exact ha
  | two hShape' _ _ => rw [hShape] at hShape'; cases hShape'
  | _ => cases hShape

theorem Written.of_two {e a b : Expr} {o : Operator} (hShape : e.shape = .two o a b)
    (h : e.Written) : a.Written ∧ b.Written := by
  cases h with
  | one hShape' _ => rw [hShape] at hShape'; cases hShape'
  | two hShape' ha hb => rw [hShape] at hShape'; cases hShape'; exact ⟨ha, hb⟩
  | _ => cases hShape

theorem Written.of_access {key : Expr} (h : (Expr.field .root key).Written) : key.Written :=
  (h.of_two (o := .field) rfl).2

end Expr

namespace Expression

/--
Tokens that write a tree, with the precedence of its outermost operator; in parentheses, or without
an operator, it is 0. A left operand may bind as tight as its operator, a right one must bind
tighter.
-/
inductive Rendering : Expr → Nat → List Token → Prop
  | root : Rendering .root 0 [.word "$"]
  | element : Rendering .element 0 [.element]
  | literal (s : String) : Rendering (.literal (.string s)) 0 [.word s]
  | var (name : String) : Rendering (.var name) 0 [.word name]
  | group {e : Expr} {p : Nat} {tokens : List Token} (h : Rendering e p tokens) :
    Rendering e 0 (.openGroup :: tokens ++ [.closeGroup])
  | between {e a b : Expr} {o : Operator} {p q : Nat} {left right : List Token}
    (hShape : e.shape = .two o a b) (ha : Rendering a p left) (hb : Rendering b q right)
    (hLeft : p ≤ o.precedence) (hRight : q < o.precedence) :
    Rendering e o.precedence (left ++ .op o :: right)
  | negation {a : Expr} {p : Nat} {tokens : List Token} (ha : Rendering a p tokens)
    (hOperand : p ≤ Operator.not.precedence) :
    Rendering (.not a) Operator.not.precedence (.op .not :: tokens)
  | behind {e a : Expr} {o : Operator} {p : Nat} {tokens : List Token}
    (hShape : e.shape = .one o a) (hFixity : o.fixity = .after) (ha : Rendering a p tokens)
    (hOperand : p ≤ o.precedence) : Rendering e o.precedence (tokens ++ [.op o])
  | access {key : Expr} {tokens : List Token} (h : Rendering key 0 tokens) :
    Rendering (.field .root key) Operator.field.precedence (.op .field :: tokens)

theorem Rendering.exists_of_written {e : Expr} (h : e.Written) :
    ∃ p tokens, Rendering e p tokens := by
  induction h with
  | root => exact ⟨0, _, .root⟩
  | element => exact ⟨0, _, .element⟩
  | literal s _ => exact ⟨0, _, .literal s⟩
  | var name _ _ => exact ⟨0, _, .var name⟩
  | @one e a o hShape _ ih =>
    obtain ⟨p, tokens, ha⟩ := ih
    obtain rfl | hFixity := (Expr.unary?_of_shape hShape).2
    · obtain rfl : e = .not a := by
        cases e with
        | field base key => cases base <;> cases hShape
        | not b => cases hShape; rfl
        | _ => cases hShape
      exact ⟨_, _, .negation ha.group (Nat.zero_le _)⟩
    · exact ⟨_, _, .behind hShape hFixity ha.group (Nat.zero_le _)⟩
  | two hShape _ _ iha ihb =>
    obtain ⟨p, left, ha⟩ := iha
    obtain ⟨q, right, hb⟩ := ihb
    exact ⟨_, _, .between hShape ha.group hb.group (Nat.zero_le _) (Operator.precedence_pos _)⟩

theorem Rendering.startsOperand {e : Expr} {tokens : List Token} (h : Rendering e 0 tokens) :
    ∃ token rest, tokens = token :: rest ∧ token.startsOperand = true := by
  generalize hp : 0 = p at h
  cases h with
  | group _ => exact ⟨_, _, rfl, rfl⟩
  | between _ _ _ _ _ => exact absurd hp (Nat.ne_of_lt (Operator.precedence_pos _))
  | negation _ _ => cases hp
  | behind _ _ _ _ => exact absurd hp (Nat.ne_of_lt (Operator.precedence_pos _))
  | access _ => cases hp
  | _ => exact ⟨_, _, rfl, rfl⟩

/-- Folding the items puts the tree on top of the operands, whatever they are. -/
def Leaves (scope : List String) (items : List Item) (e : Expr) : Prop :=
  ∀ index stack, pushAll scope index stack items = .ok (e :: stack)

theorem Leaves.two {scope : List String} {xs ys : List Item} {e a b : Expr} {o : Operator}
    (hShape : e.shape = .two o a b) (ha : Leaves scope xs a) (hb : Leaves scope ys b) :
    Leaves scope (xs ++ (ys ++ [.op o])) e := by
  intro index stack
  refine pushAll_append_ok.mpr ⟨a :: stack, ha index stack, ?_⟩
  refine pushAll_append_ok.mpr ⟨b :: a :: stack, hb _ (a :: stack), ?_⟩
  simpa [push] using reduce_two hShape _ stack

theorem Leaves.one {scope : List String} {xs : List Item} {e a : Expr} {o : Operator}
    (hShape : e.shape = .one o a) (ha : Leaves scope xs a) : Leaves scope (xs ++ [.op o]) e := by
  intro index stack
  refine pushAll_append_ok.mpr ⟨a :: stack, ha index stack, ?_⟩
  simpa [push] using reduce_one hShape _ stack

theorem Leaves.access {scope : List String} {xs : List Item} {key : Expr}
    (h : Leaves scope xs key) : Leaves scope (xs ++ [.op .rootField]) (.field .root key) := by
  intro index stack
  exact pushAll_append_ok.mpr ⟨key :: stack, h index stack, rfl⟩

namespace Postorder

/-- Operators behind an operand that bind at least as tight as `p` move nothing of the stack. -/
def Holds (p : Nat) (stack : List Waiting) : Prop :=
  ∀ o : Operator, o ≠ .not → o.precedence ≤ p → flushTighter o stack = ([], stack)

theorem Holds.mono {p q : Nat} {stack : List Waiting} (h : Holds q stack) (hp : p ≤ q) :
    Holds p stack :=
  fun o hNot hLe => h o hNot (Nat.le_trans hLe hp)

theorem holds_nil (p : Nat) : Holds p [] := fun _ _ _ => rfl

theorem holds_group (p : Nat) (stack : List Waiting) : Holds p (.group :: stack) :=
  fun _ _ _ => rfl

theorem holds_op {p : Nat} {top : Operator} (h : p < top.precedence) (stack : List Waiting) :
    Holds p (.op top :: stack) := by
  intro o _ hLe
  have hTop : ¬ top.precedence ≤ o.precedence := by omega
  simp [flushTighter, hTop]

theorem holds_not {p : Nat} (h : p ≤ Operator.not.precedence) (stack : List Waiting) :
    Holds p (.op .not :: stack) := by
  intro o hNot hLe
  have hTop : ¬ Operator.not.precedence ≤ o.precedence := by
    have hTight := Nat.le_trans hLe h
    cases o <;> first | contradiction | decide
  simp [flushTighter, hTop]

theorem run_behind (st : State) (rest : List Token) {o : Operator} {os : List Operator}
    {below : List Waiting} (hExpecting : st.expecting = false) (hFixity : o.fixity ≠ .before)
    (hStack : st.stack = os.map .op ++ below) (hTight : ∀ top ∈ os, top.precedence ≤ o.precedence)
    (hBelow : flushTighter o below = ([], below)) :
    run st (.op o :: rest) =
      run ⟨st.index + 1, st.output ++ os.map .op, .op o :: below, o.expectsOperand⟩ rest := by
  apply run_of_step
  simp [step, hExpecting, stepBehind, hFixity, hStack, flushTighter_of_le hTight, hBelow]

theorem run_rendering {scope : List String} {e : Expr} {p : Nat} {tokens : List Token}
    (h : Rendering e p tokens) (hWritten : e.Written) (hScoped : e.Scoped scope true) (st : State)
    (rest : List Token) (hExpecting : st.expecting = true) (hHolds : Holds p st.stack) :
    ∃ (out : List Item) (os : List Operator) (index : Nat), run st (tokens ++ rest) =
        run ⟨index, st.output ++ out, os.map .op ++ st.stack, false⟩ rest ∧
      (∀ o ∈ os, o.precedence ≤ p) ∧ Leaves scope (out ++ os.map .op) e := by
  -- `os` is the right edge of the tree: the next operator outside of it puts all of them out.
  induction h generalizing st rest with
  | root => exact ⟨[.word "$"], [], _, rfl, by simp, fun _ _ => rfl⟩
  | element => exact ⟨[.element], [], _, rfl, by simp, fun _ _ => rfl⟩
  | literal s =>
    refine ⟨[.word s], [], _, rfl, by simp, fun index stack => ?_⟩
    cases hWritten with
    | literal _ hWord =>
      have hRoot : s ≠ "$" := by rintro rfl; exact hWord rfl
      simp [push, operand, hRoot, hWord, bind, Except.bind]
    | one hShape _ => cases hShape
    | two hShape _ _ => cases hShape
  | var name =>
    refine ⟨[.word name], [], _, rfl, by simp, fun index stack => ?_⟩
    have hMember : name ∈ scope := hScoped
    cases hWritten with
    | var _ hDollar hRoot =>
      simp [push, operand, hRoot, hDollar, hMember, bind, Except.bind]
    | one hShape _ => cases hShape
    | two hShape _ _ => cases hShape
  | @group e p tokens _ ih =>
    obtain ⟨out, os, index, hRun, _, hLeaves⟩ := ih hWritten hScoped
      ⟨st.index + 1, st.output, .group :: st.stack, true⟩ (.closeGroup :: rest) rfl
      (holds_group p st.stack)
    refine ⟨out ++ os.map .op, [], index + 1, ?_, by simp, by simpa using hLeaves⟩
    rw [List.cons_append, List.cons_append, List.append_assoc]
    refine (run_of_step rfl).trans (hRun.trans (run_of_step ?_))
    simp [step]
  | @between e a b o p q left right hShape _ _ hLeft hRight iha ihb =>
    obtain ⟨hWrittenA, hWrittenB⟩ := hWritten.of_two hShape
    obtain ⟨hScopedA, hScopedB⟩ := hScoped.of_two hShape
    have hFixity := (Expr.binary?_of_shape hShape).2
    obtain ⟨outA, osA, indexA, hRunA, hTightA, hLeavesA⟩ := iha hWrittenA hScopedA st
      (.op o :: (right ++ rest)) hExpecting (hHolds.mono hLeft)
    have hNot : o ≠ .not := by rintro rfl; cases hFixity
    have hBehind := run_behind ⟨indexA, st.output ++ outA, osA.map .op ++ st.stack, false⟩
      (right ++ rest) rfl (by rw [hFixity]; decide) rfl
      (fun top hTop => Nat.le_trans (hTightA top hTop) hLeft) (hHolds o hNot (Nat.le_refl _))
    obtain ⟨outB, osB, indexB, hRunB, hTightB, hLeavesB⟩ := ihb hWrittenB hScopedB
      ⟨indexA + 1, st.output ++ outA ++ osA.map .op, .op o :: st.stack, o.expectsOperand⟩ rest
      (by simp [Operator.expectsOperand, hFixity]) (holds_op hRight st.stack)
    refine ⟨outA ++ osA.map .op ++ outB, osB ++ [o], indexB, ?_, ?_, ?_⟩
    · rw [List.append_assoc, List.cons_append, hRunA, hBehind, hRunB]
      simp
    · refine List.forall_mem_append.mpr ⟨fun top hTop => ?_, by simp⟩
      have hTop := hTightB top hTop
      omega
    · simpa using hLeavesA.two hShape hLeavesB
  | @negation a p tokens _ hOperand ih =>
    obtain ⟨out, os, index, hRun, hTight, hLeaves⟩ := ih (hWritten.of_one rfl) hScoped
      ⟨st.index + 1, st.output, .op .not :: st.stack, true⟩ rest rfl (holds_not hOperand st.stack)
    refine ⟨out, os ++ [.not], index, ?_, ?_, ?_⟩
    · have hStep : step st (tokens ++ rest).head? (.op .not) =
          .ok ⟨st.index + 1, st.output, .op .not :: st.stack, true⟩ := by
        simp [step, hExpecting, stepBefore, Operator.fixity]
      rw [List.cons_append, run_of_step hStep, hRun]
      simp
    · refine List.forall_mem_append.mpr ⟨fun top hTop => ?_, by simp⟩
      exact Nat.le_trans (hTight top hTop) hOperand
    · simpa using hLeaves.one (e := .not a) rfl
  | @behind e a o p tokens hShape hFixity _ hOperand ih =>
    obtain ⟨out, os, index, hRun, hTight, hLeaves⟩ := ih (hWritten.of_one hShape)
      (hScoped.of_one hShape) st (.op o :: rest) hExpecting (hHolds.mono hOperand)
    have hNot : o ≠ .not := by rintro rfl; cases hFixity
    have hBehind := run_behind ⟨index, st.output ++ out, os.map .op ++ st.stack, false⟩ rest
      rfl (by rw [hFixity]; decide) rfl
      (fun top hTop => Nat.le_trans (hTight top hTop) hOperand) (hHolds o hNot (Nat.le_refl _))
    refine ⟨out ++ os.map .op, [o], index + 1, ?_, by simp, by simpa using hLeaves.one hShape⟩
    rw [List.append_assoc, List.cons_append, List.nil_append, hRun, hBehind]
    simp [Operator.expectsOperand, hFixity]
  | @access key tokens hKey ih =>
    obtain ⟨out, os, index, hRun, hTight, hLeaves⟩ := ih hWritten.of_access hScoped.2
      ⟨st.index + 1, st.output, .op .rootField :: st.stack, true⟩ rest rfl
      (holds_op (by decide) st.stack)
    refine ⟨out, os ++ [.rootField], index, ?_, ?_, ?_⟩
    · obtain ⟨token, more, rfl, hStarts⟩ := hKey.startsOperand
      have hStep : step st (token :: more ++ rest).head? (.op .field) =
          .ok ⟨st.index + 1, st.output, .op .rootField :: st.stack, true⟩ := by
        simp [step, hExpecting, stepBefore, Operator.fixity, hStarts]
      rw [List.cons_append, run_of_step hStep, hRun]
      simp
    · refine List.forall_mem_append.mpr ⟨fun top hTop => ?_, by decide⟩
      exact Nat.le_trans (hTight top hTop) (Nat.zero_le _)
    · simpa using hLeaves.access

end Postorder

/-- Every tree has a rendering, and each of its renderings is read back as the tree. -/
theorem build_rendering {scope : List String} {e : Expr} (hWritten : e.Written)
    (hScoped : e.Scoped scope false) :
    (∃ p tokens, Rendering e p tokens) ∧ ∀ p tokens, Rendering e p tokens →
      ∃ items, postorder tokens = .ok items ∧ build scope items = .ok e := by
  refine ⟨Rendering.exists_of_written hWritten, ?_⟩
  intro p tokens h
  obtain ⟨hBound, hElement⟩ := Expr.scoped_false_iff.mp hScoped
  obtain ⟨out, os, index, hRun, _, hLeaves⟩ :=
    Postorder.run_rendering h hWritten hBound .start [] rfl (Postorder.holds_nil p)
  refine ⟨out ++ os.map .op, ?_, build_ok.mpr ⟨hLeaves 0 [], hElement⟩⟩
  rw [List.append_nil] at hRun
  rw [postorder, hRun]
  simp [Postorder.State.start, Postorder.run, Postorder.finish, bind, Except.bind]

/-- The tokens `$x !sortBy @.price | (!.a)`. -/
theorem build_rendering_sortBy :
    let e := Expr.or (.sortBy (.var "$x") (.field .element (.literal (.string "price"))))
      (.not (.field .root (.literal (.string "a"))))
    let tokens := [.word "$x", .op .sortBy, .element, .op .field, .word "price", .op .or,
      .openGroup, .op .not, .op .field, .word "a", .closeGroup]
    e.Written ∧ e.Scoped ["$x"] false ∧ Rendering e 8 tokens ∧
      ∃ items, postorder tokens = .ok items ∧ build ["$x"] items = .ok e := by
  intro e tokens
  have hWritten : e.Written := .two rfl
    (.two rfl (.var "$x" (by decide) (by decide))
      (.two rfl .element (.literal "price" (by decide))))
    (.one rfl (.two rfl .root (.literal "a" (by decide))))
  have hScoped : e.Scoped ["$x"] false := by simp [e, Expr.Scoped]
  have hRendering : Rendering e 8 tokens :=
    .between (o := .or) rfl
      (.between (o := .sortBy) rfl (.var "$x")
        (.between (o := .field) rfl .element (.literal "price") (by decide) (by decide))
        (by decide) (by decide))
      (.group (.negation (.access (.literal "a")) (by decide))) (by decide) (by decide)
  exact ⟨hWritten, hScoped, hRendering, (build_rendering hWritten hScoped).2 8 tokens hRendering⟩

end Expression

end Reshape
