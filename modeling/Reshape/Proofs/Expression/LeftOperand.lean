import Reshape.Proofs.Expression.InOrder

/-!
# What an operator behind its operand takes

In a postorder an operator takes the operands right before it. One that is read behind its operand
takes only what stands to its left if it is the next item put out. An operator that comes right
behind it and binds tighter is put out before it and takes its operand away.
-/

namespace Reshape.Expression

namespace Postorder

/-- From a state on, each operator read behind its operand is the next item that is put out. -/
def AppliedFrom (st : State) (tokens : List Token) (items : List Item) : Prop :=
  ∀ before o after st', tokens = before ++ .op o :: after → o.expectsOperand = false →
    run st (before ++ [.op o]) = .ok st' → st'.expecting = false →
    st'.output ++ [.op o] <+: items

theorem step_behind_next (st : State) (next next' : Option Token) {o : Operator}
    (h : o.expectsOperand = false) : step st next (.op o) = step st next' (.op o) := by
  have hDot : o ≠ .field ∧ o ≠ .rootField := by
    constructor <;> rintro rfl <;> cases h
  simp [step, stepBefore, hDot]

theorem appliedFrom_cons {st st' : State} {token : Token} {rest : List Token} {items : List Item}
    (hStep : step st rest.head? token = .ok st') :
    AppliedFrom st (token :: rest) items ↔
      (∀ o, token = .op o → o.expectsOperand = false → st'.expecting = false →
        st'.output ++ [.op o] <+: items) ∧ AppliedFrom st' rest items := by
  have hBefore : ∀ before o after, rest = before ++ .op o :: after →
      run st (token :: before ++ [.op o]) = run st' (before ++ [.op o]) := by
    rintro before o after rfl
    refine run_of_step ?_
    cases before <;> exact hStep
  have hAlone : ∀ o, token = .op o → o.expectsOperand = false →
      run st [.op o] = .ok st' := by
    rintro o rfl hOpen
    exact run_of_step ((step_behind_next st _ _ hOpen).trans hStep)
  constructor
  · intro h
    constructor
    · intro o hToken hOpen
      exact h [] o rest st' (by rw [hToken]; rfl) hOpen (hAlone o hToken hOpen)
    · intro before o after final hRest hOpen hRun
      refine h (token :: before) o after final (by rw [hRest]; rfl) hOpen ?_
      rw [hBefore before o after hRest, hRun]
  · rintro ⟨hFirst, hLater⟩ before o after final hTokens hOpen hRun
    cases before with
    | nil =>
      cases hTokens
      rw [List.nil_append, hAlone o rfl hOpen] at hRun
      cases hRun
      exact hFirst o rfl hOpen
    | cons _ before =>
      cases hTokens
      rw [hBefore before o after rfl] at hRun
      exact hLater before o after final rfl hOpen hRun

def Ends (st : State) (tokens : List Token) (items : List Item) : Prop :=
  ∃ (final : State) (os : List Operator), run st tokens = .ok final ∧
    final.stack = os.map .op ∧ items = final.output ++ os.map .op

theorem Ends.cons {st : State} {token : Token} {rest : List Token} {items : List Item}
    (h : Ends st (token :: rest) items) :
    ∃ st', step st rest.head? token = .ok st' ∧ Step st rest.head? token st' ∧
      Ends st' rest items := by
  obtain ⟨final, os, hRun, hStack, hItems⟩ := h
  obtain ⟨st', hStep, hRest⟩ := bind_eq_ok.mp hRun
  exact ⟨st', hStep, step_ok hStep, final, os, hRest, hStack, hItems⟩

theorem Ends.prefix_output {st : State} {tokens : List Token} {items : List Item}
    (h : Ends st tokens items) : st.output <+: items := by
  obtain ⟨final, os, hRun, _, rfl⟩ := h
  exact (prefix_run_output hRun).trans (List.prefix_append _ _)

theorem Ends.next_of_output {st : State} {tokens : List Token} {items more : List Item}
    {output : List Item} {item : Item} (h : Ends st tokens items)
    (hOutput : st.output = output ++ item :: more) : output ++ [item] <+: items := by
  refine List.IsPrefix.trans ?_ h.prefix_output
  exact ⟨more, by rw [hOutput]; simp⟩

/-- What is put out next is an operand, or an operator that binds tighter than `p`. -/
theorem Ends.exists_next {p : Nat} {st : State} {tokens : List Token} {items : List Item}
    (h : Ends st tokens items) (hAlternates : alternates st.expecting tokens = true)
    (hTop : st.expecting = false → ∃ top below, st.stack = .op top :: below ∧ top.precedence < p) :
    ∃ item, st.output ++ [item] <+: items ∧ ∀ o, item = .op o → o.precedence < p := by
  induction tokens generalizing st with
  | nil =>
    obtain ⟨final, os, hRun, hStack, hItems⟩ := h
    cases hRun
    have hExpecting : st.expecting = false := by simpa [alternates] using hAlternates
    obtain ⟨top, below, hTop, hLess⟩ := hTop hExpecting
    cases os with
    | nil => rw [hStack] at hTop; cases hTop
    | cons o os =>
      rw [hStack] at hTop
      cases hTop
      refine ⟨.op top, ⟨os.map .op, by rw [hItems]; simp⟩, ?_⟩
      intro o hSame
      cases hSame
      exact hLess
  | cons token rest ih =>
    obtain ⟨st', _, hStep, hRest⟩ := h.cons
    simp only [alternates, Bool.and_eq_true] at hAlternates
    obtain ⟨hFits, hAlternates⟩ := hAlternates
    rw [← hStep.expecting_eq] at hAlternates
    cases hStep with
    | word text => exact ⟨.word text, hRest.next_of_output rfl, by simp⟩
    | element => exact ⟨.element, hRest.next_of_output rfl, by simp⟩
    | root _ _ _ _ => exact ⟨.root, hRest.next_of_output rfl, by simp⟩
    | openGroup | access _ _ _ _ | negation _ =>
      have hNext := ih hRest hAlternates (by simp)
      exact hNext
    | comma _ _ _ => cases hFits
    | closeGroup os below hStack =>
      obtain ⟨top, _, hTop, hLess⟩ := hTop (by simpa [Token.fits] using hFits)
      cases os with
      | nil => rw [hStack] at hTop; cases hTop
      | cons o os =>
        rw [hStack] at hTop
        cases hTop
        exact ⟨.op top, hRest.next_of_output rfl, by simpa using hLess⟩
    | behind o os below hExpecting _ hFlush =>
      obtain ⟨top, below', hTop, hLess⟩ := hTop hExpecting
      rw [hTop, flushTighter] at hFlush
      split at hFlush
      · cases hFlush
        exact ⟨.op top, hRest.next_of_output rfl, by simpa using hLess⟩
      · rename_i hTighter
        cases hFlush
        obtain ⟨item, hItem, hBinds⟩ := ih hRest hAlternates
          (fun _ => ⟨o, .op top :: below', rfl, by omega⟩)
        exact ⟨item, by simpa using hItem, hBinds⟩

theorem Ends.le_of_next {o o' : Operator} {below : List Waiting} {st : State} {rest : List Token}
    {items : List Item} (h : Ends st (.op o' :: rest) items) (hExpecting : st.expecting = false)
    (hAlternates : alternates false (.op o' :: rest) = true) (hStack : st.stack = .op o :: below)
    (hNext : st.output ++ [.op o] <+: items) : o.precedence ≤ o'.precedence := by
  by_cases hLe : o.precedence ≤ o'.precedence
  · exact hLe
  · -- What is put out next would be an operand or bind tighter than `o'`, and `o` does neither.
    obtain ⟨st', _, hStep, hRest⟩ := h.cons
    simp only [alternates, Bool.and_eq_true] at hAlternates
    have hLater := hAlternates.2
    rw [← hExpecting, ← hStep.expecting_eq] at hLater
    cases hStep with
    | root _ hBefore _ _ | access _ hBefore _ _ | negation hBefore =>
      rw [hExpecting] at hBefore
      cases hBefore
    | behind _ os below' _ _ hFlush =>
      rw [hStack, flushTighter, if_neg hLe] at hFlush
      cases hFlush
      obtain ⟨item, hItem, hBinds⟩ := hRest.exists_next hLater
        (fun _ => ⟨o', .op o :: below, rfl, Nat.lt_of_not_le hLe⟩)
      rw [List.map_nil, List.append_nil] at hItem
      have hSame : st.output ++ [item] = st.output ++ [.op o] :=
        (List.prefix_of_prefix_length_le hItem hNext (by simp)).eq_of_length (by simp)
      exact absurd (hBinds o (by simpa using hSame)) (Nat.lt_irrefl _)

theorem Ends.next_of_le {o : Operator} {below : List Waiting} {st : State} {tokens : List Token}
    {items : List Item} (h : Ends st tokens items) (hExpecting : st.expecting = false)
    (hAlternates : alternates false tokens = true) (hStack : st.stack = .op o :: below)
    (hLooser : ∀ o', tokens.head? = some (.op o') → o.precedence ≤ o'.precedence) :
    st.output ++ [.op o] <+: items := by
  cases tokens with
  | nil =>
    obtain ⟨final, os, hRun, hFinal, rfl⟩ := h
    cases hRun
    cases os with
    | nil => rw [hStack] at hFinal; cases hFinal
    | cons top os =>
      rw [hStack] at hFinal
      cases hFinal
      exact ⟨os.map .op, by simp⟩
  | cons token rest =>
    obtain ⟨st', _, hStep, hRest⟩ := h.cons
    simp only [alternates, Bool.and_eq_true] at hAlternates
    cases hStep with
    | word _ | element | openGroup | comma _ _ _ => cases hAlternates.1
    | root _ hBefore _ _ | access _ hBefore _ _ | negation hBefore =>
      rw [hExpecting] at hBefore
      cases hBefore
    | closeGroup os below' hGroup =>
      cases os with
      | nil => rw [hStack] at hGroup; cases hGroup
      | cons top os =>
        rw [hStack] at hGroup
        cases hGroup
        exact hRest.next_of_output rfl
    | behind o' os below' _ _ hFlush =>
      rw [hStack, flushTighter, if_pos (hLooser o' rfl)] at hFlush
      cases hFlush
      exact hRest.next_of_output rfl

theorem Ends.next_iff {o : Operator} {below : List Waiting} {st : State} {tokens : List Token}
    {items : List Item} (h : Ends st tokens items) (hExpecting : st.expecting = false)
    (hAlternates : alternates false tokens = true) (hStack : st.stack = .op o :: below) :
    st.output ++ [.op o] <+: items ↔
      ∀ o', tokens.head? = some (.op o') → o.precedence ≤ o'.precedence := by
  constructor
  · intro hNext o' hHead
    obtain ⟨rest, rfl⟩ : ∃ rest, tokens = .op o' :: rest := by
      cases tokens with
      | nil => cases hHead
      | cons token rest => cases hHead; exact ⟨rest, rfl⟩
    exact h.le_of_next hExpecting hAlternates hStack hNext
  · exact h.next_of_le hExpecting hAlternates hStack

theorem appliedFrom_iff {st : State} {tokens : List Token} {items : List Item}
    (h : Ends st tokens items) (hAlternates : alternates st.expecting tokens = true) :
    AppliedFrom st tokens items ↔ settled st.expecting tokens = true := by
  induction tokens generalizing st with
  | nil =>
    refine iff_of_true ?_ rfl
    intro before o after st' hTokens
    cases before <;> cases hTokens
  | cons token rest ih =>
    obtain ⟨st', hStep, hMove, hRest⟩ := h.cons
    simp only [alternates, Bool.and_eq_true] at hAlternates
    rw [← hMove.expecting_eq] at hAlternates
    rw [appliedFrom_cons hStep, settled, Bool.and_eq_true, ← hMove.expecting_eq,
      ih hRest hAlternates.2]
    refine and_congr_left fun _ => ?_
    cases hMove with
    | behind o os below hExpecting _ _ =>
      cases hOpen : o.expectsOperand with
      | true => simp [hOpen]
      | false =>
        have hNext := hRest.next_iff hOpen (by rw [← hOpen]; exact hAlternates.2) rfl
        simpa [hExpecting, hOpen] using hNext
    | root o hExpecting hDot _ =>
      have hOpen := Operator.expectsOperand_of_isDot hDot
      simp [hOpen]
    | access o hExpecting _ _ => simp [hExpecting]
    | negation hExpecting => simp [hExpecting]
    | _ => simp [Token.settles]

end Postorder

/-- Each operator behind its operand is applied to what the tokens to its left have put out. -/
def AppliedToLeft (tokens : List Token) (items : List Item) : Prop :=
  Postorder.AppliedFrom .start tokens items

theorem appliedToLeft_iff {tokens : List Token} {items : List Item}
    (hAlternates : alternates true tokens = true) (hItems : postorder tokens = .ok items) :
    AppliedToLeft tokens items ↔ settled true tokens = true :=
  Postorder.appliedFrom_iff (postorder_ok hItems) hAlternates

/--
Operators attach in the order of the text just where none behind its operand is followed by one
that binds tighter.
-/
theorem build_inOrder_iff {scope : List String} {tokens : List Token} {items : List Item}
    {e : Expr} (hAlternates : alternates true tokens = true)
    (hItems : postorder tokens = .ok items) (hBuild : build scope items = .ok e) :
    InOrder e (spelledOut true tokens) ∧ AppliedToLeft tokens items ↔
      settled true tokens = true := by
  constructor
  · rintro ⟨_, hLeft⟩
    exact (appliedToLeft_iff hAlternates hItems).mp hLeft
  · intro hSettled
    constructor
    · exact inOrder_of_settled hAlternates hSettled hItems hBuild
    · exact (appliedToLeft_iff hAlternates hItems).mpr hSettled

/-- The tokens `(.a # ! = $x) !json | b`. -/
theorem build_inOrder_iff_group :
    let tokens := [.openGroup, .op .field, .word "a", .op .dedup, .op .not, .op .equals,
      .word "$x", .closeGroup, .op .json, .op .or, .word "b"]
    let items := [.word "a", .op .rootField, .op .dedup, .op .not, .word "$x", .op .equals,
      .op .json, .word "b", .op .or]
    let e := Expr.or (.reparse (.equals (.not (.dedup (.field .root (.literal (.string "a")))))
      (.var "$x"))) (.literal (.string "b"))
    alternates true tokens = true ∧ postorder tokens = .ok items ∧
      build ["$x"] items = .ok e ∧
      (InOrder e (spelledOut true tokens) ∧ AppliedToLeft tokens items ↔
        settled true tokens = true) := by
  intro tokens items e
  have hAlternates : alternates true tokens = true := rfl
  have hItems : postorder tokens = .ok items := rfl
  have hBuild : build ["$x"] items = .ok e := rfl
  exact ⟨hAlternates, hItems, hBuild, build_inOrder_iff hAlternates hItems hBuild⟩

/-- In `a !sort . b` the dot takes the operand of `!sort`, which is then applied to all of it. -/
theorem not_inOrder_sort_field :
    let tokens := [.word "a", .op .sort, .op .field, .word "b"]
    let items := [.word "a", .word "b", .op .field, .op .sort]
    let e := Expr.sort (.field (.literal (.string "a")) (.literal (.string "b")))
    alternates true tokens = true ∧ postorder tokens = .ok items ∧ build [] items = .ok e ∧
      ¬ InOrder e (spelledOut true tokens) ∧ ¬ AppliedToLeft tokens items := by
  intro tokens items e
  have hAlternates : alternates true tokens = true := rfl
  have hItems : postorder tokens = .ok items := rfl
  refine ⟨hAlternates, hItems, rfl, ?_, ?_⟩
  · intro hInOrder
    have hLast : (spelledOut true tokens).getLast? = some (.op .sort) := hInOrder.getLast?_sort
    cases hLast
  · intro hLeft
    have hSettled := (appliedToLeft_iff hAlternates hItems).mp hLeft
    cases hSettled

end Reshape.Expression
