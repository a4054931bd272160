import Reshape.Proofs.Expression.Shape

/-!
# The in-order reading of a tree

Where operands and operators alternate, what waits on the stack and the operands put out so far
read, in order, as the tokens up to there. An operator behind its operand keeps this up only if the
next operator does not bind tighter.
-/

namespace Reshape.Expression

/-- Whether a token may stand where an operand is expected, or behind one. No comma may. -/
def Token.fits (expecting : Bool) : Token → Bool
  | .word _ => expecting
  | .element => expecting
  | .openGroup => expecting
  | .closeGroup => !expecting
  | .comma => false
  | .op o => if expecting then o.isDot || o == .not else o.fixity != .before

def alternates : Bool → List Token → Bool
  | expecting, [] => !expecting
  | expecting, token :: rest =>
    token.fits expecting && alternates (token.awaits expecting rest.head?) rest

/-- An operator behind its operand is settled unless the next token is one that binds tighter. -/
def Token.settles (expecting : Bool) (next : Option Token) : Token → Bool
  | .op o =>
    match next with
    | some (.op o') => expecting || o.expectsOperand || o.precedence ≤ o'.precedence
    | _ => true
  | _ => true

@[simp]
theorem Token.settles_op {expecting : Bool} {next : Option Token} {o : Operator} :
    (Token.op o).settles expecting next = true ↔ expecting = true ∨ o.expectsOperand = true ∨
      ∀ o', next = some (.op o') → o.precedence ≤ o'.precedence := by
  cases next with
  | none => simp [Token.settles]
  | some token => cases token <;> simp [Token.settles, or_assoc]

def settled : Bool → List Token → Bool
  | _, [] => true
  | expecting, token :: rest =>
    token.settles expecting rest.head? && settled (token.awaits expecting rest.head?) rest

/-- The token without parentheses, and the root that a dot in place of an operand stands for. -/
def Token.spelledOut (expecting : Bool) (next : Option Token) : Token → List Token
  | .openGroup => []
  | .closeGroup => []
  | .op o =>
    if expecting && o.isDot then
      .word "$" :: if next.any Token.startsOperand then [.op .field] else []
    else [.op o]
  | token => [token]

def spelledOut : Bool → List Token → List Token
  | _, [] => []
  | expecting, token :: rest =>
    token.spelledOut expecting rest.head? ++
      spelledOut (token.awaits expecting rest.head?) rest

/-- The tokens of a tree in order. Negation is written before its operand or behind it. -/
inductive InOrder : Expr → List Token → Prop
  | root : InOrder .root [.word "$"]
  | element : InOrder .element [.element]
  | literal (s : String) : InOrder (.literal (.string s)) [.word s]
  | var (name : String) : InOrder (.var name) [.word name]
  | between {e a b : Expr} {o : Operator} {left right : List Token}
    (hShape : e.shape = .two o a b) (ha : InOrder a left) (hb : InOrder b right) :
    InOrder e (left ++ .op o :: right)
  | behind {e a : Expr} {o : Operator} {tokens : List Token} (hShape : e.shape = .one o a)
    (ha : InOrder a tokens) : InOrder e (tokens ++ [.op o])
  | negation {a : Expr} {tokens : List Token} (ha : InOrder a tokens) :
    InOrder (.not a) (.op .not :: tokens)

theorem InOrder.isWhole {e : Expr} {tokens : List Token} (h : InOrder e tokens) : e.IsWhole := by
  cases h with
  | between hShape _ _ => cases e <;> trivial
  | behind hShape _ => cases e <;> trivial
  | _ => trivial

theorem InOrder.getLast?_sort {a : Expr} {tokens : List Token} (h : InOrder (.sort a) tokens) :
    tokens.getLast? = some (.op .sort) := by
  cases h with
  | between hShape _ _ => cases hShape
  | behind hShape _ => cases hShape; simp

theorem inOrder_operand {scope : List String} {text : String} {e : Expr}
    (h : operand scope text = .ok e) : InOrder e [.word text] := by
  obtain ⟨rfl, rfl⟩ | ⟨_, _, _, rfl⟩ | ⟨_, rfl⟩ := operand_ok.mp h
  · exact .root
  · exact .var text
  · exact .literal text

/-- What stands before an operand that is still to come, and its tokens. -/
inductive Spine : List Waiting → List Expr → List Token → Prop
  | nil : Spine [] [] []
  | group {stack : List Waiting} {operands : List Expr} {tokens : List Token}
    (h : Spine stack operands tokens) : Spine (.group :: stack) operands tokens
  | negation {stack : List Waiting} {operands : List Expr} {tokens : List Token}
    (h : Spine stack operands tokens) : Spine (.op .not :: stack) operands (tokens ++ [.op .not])
  | access {stack : List Waiting} {operands : List Expr} {tokens : List Token}
    (h : Spine stack operands tokens) :
    Spine (.op .rootField :: stack) operands (tokens ++ [.word "$", .op .field])
  | between {stack : List Waiting} {operands : List Expr} {tokens left : List Token} {a : Expr}
    {o : Operator} (hFixity : o.fixity = .between) (h : Spine stack operands tokens)
    (ha : InOrder a left) : Spine (.op o :: stack) (a :: operands) (tokens ++ (left ++ [.op o]))

def Closed (stack : List Waiting) (operands : List Expr) (tokens : List Token) : Prop :=
  ∃ a rest left right, operands = a :: rest ∧ Spine stack rest left ∧ InOrder a right ∧
    tokens = left ++ right

/-- What stands behind an operand: at most one operator has not yet been applied to it. -/
def Trailing : Option Operator → List Waiting → List Expr → List Token → Prop
  | none, stack, operands, tokens => Closed stack operands tokens
  | some o, stack, operands, tokens => ∃ below left, stack = .op o :: below ∧
    o.expectsOperand = false ∧ Closed below operands left ∧ tokens = left ++ [.op o]

theorem Closed.flush {scope : List String} {index : Nat} {os : List Operator}
    {below : List Waiting} {operands operands' : List Expr} {tokens : List Token}
    (h : Closed (os.map .op ++ below) operands tokens)
    (hPush : pushAll scope index operands (os.map .op) = .ok operands') :
    Closed below operands' tokens := by
  induction os generalizing index operands with
  | nil => cases hPush; exact h
  | cons o os ih =>
    obtain ⟨a, rest, left, right, rfl, hSpine, ha, rfl⟩ := h
    obtain ⟨middle, hItem, hItems⟩ := pushAll_cons_ok.mp hPush
    refine ih ?_ hItems
    cases hSpine with
    | @negation _ _ left hSpine =>
      cases hItem
      exact ⟨_, _, left, _, rfl, hSpine, .negation ha, by simp⟩
    | @access _ _ left hSpine =>
      cases hItem
      exact ⟨_, _, left, _, rfl, hSpine, .between (o := .field) rfl .root ha, by simp⟩
    | @between _ operands left middle' b _ hFixity hSpine hb =>
      obtain ⟨_, e, _, _, _, hOperands, rfl, hTree⟩ | ⟨hNot, _⟩ := reduce_ok hItem
      · cases hOperands
        have hShape := Expr.shape_of_binary? hb.isWhole hTree
        exact ⟨_, _, left, _, rfl, hSpine, .between hShape hb ha, by simp⟩
      · exact absurd hFixity hNot

theorem Trailing.flush {scope : List String} {index : Nat} {pending : Option Operator}
    {os : List Operator} {below : List Waiting} {operands operands' : List Expr}
    {tokens : List Token} (h : Trailing pending (os.map .op ++ below) operands tokens)
    (hPending : pending.isSome → os ≠ [])
    (hPush : pushAll scope index operands (os.map .op) = .ok operands') :
    Closed below operands' tokens := by
  cases pending with
  | none => exact Closed.flush h hPush
  | some o =>
    obtain ⟨stack, _, hStack, hFixity, ⟨a, rest, left, right, rfl, hSpine, ha, rfl⟩, rfl⟩ := h
    cases os with
    | nil => exact absurd rfl (hPending rfl)
    | cons top os =>
      cases hStack
      obtain ⟨middle, hItem, hItems⟩ := pushAll_cons_ok.mp hPush
      obtain ⟨hBetween, _⟩ | ⟨_, e, _, _, hOperands, rfl, hTree⟩ := reduce_ok hItem
      · simp [Operator.expectsOperand, hBetween] at hFixity
      · cases hOperands
        obtain ⟨rfl, _⟩ | hShape := Expr.shape_of_unary? hTree
        · cases hFixity
        · exact Closed.flush ⟨_, _, left, _, rfl, hSpine, .behind hShape ha, by simp⟩ hItems

namespace Postorder

/-- The state reads as the tokens; `pending` waits to be applied to the operand before it. -/
def Reads (scope : List String) (pending : Option Operator) (st : State) (tokens : List Token) :
    Prop :=
  ∃ operands, pushAll scope 0 [] st.output = .ok operands ∧
    if st.expecting then Spine st.stack operands tokens
    else Trailing pending st.stack operands tokens

theorem closed_reads {scope : List String} {st : State} {tokens : List Token}
    {operands : List Expr} (hPush : pushAll scope 0 [] st.output = .ok operands)
    (hExpecting : st.expecting = false) (h : Closed st.stack operands tokens) :
    Reads scope none st tokens :=
  ⟨operands, hPush, by rw [hExpecting]; exact h⟩

theorem spine_reads {scope : List String} {st : State} {tokens : List Token}
    {operands : List Expr} (hPush : pushAll scope 0 [] st.output = .ok operands)
    (hExpecting : st.expecting = true) (h : Spine st.stack operands tokens) :
    Reads scope none st tokens :=
  ⟨operands, hPush, by rw [hExpecting]; exact h⟩

theorem Reads.spine {scope : List String} {pending : Option Operator} {st : State}
    {tokens : List Token} (h : Reads scope pending st tokens) (hExpecting : st.expecting = true) :
    ∃ operands, pushAll scope 0 [] st.output = .ok operands ∧ Spine st.stack operands tokens := by
  obtain ⟨operands, hPush, h⟩ := h
  rw [hExpecting] at h
  exact ⟨operands, hPush, h⟩

theorem Reads.pending {scope : List String} {o : Operator} {st : State} {tokens : List Token}
    (h : Reads scope (some o) st tokens) (hExpecting : st.expecting = false) :
    ∃ below, st.stack = .op o :: below := by
  obtain ⟨operands, _, h⟩ := h
  rw [hExpecting] at h
  obtain ⟨below, _, hStack, _⟩ := h
  exact ⟨below, hStack⟩

theorem Reads.flush {scope : List String} {pending : Option Operator} {st : State}
    {tokens : List Token} {os : List Operator} {below : List Waiting} {operands : List Expr}
    (h : Reads scope pending st tokens) (hExpecting : st.expecting = false)
    (hStack : st.stack = os.map .op ++ below)
    (hBelow : ∀ o rest, pending = some o → below ≠ .op o :: rest)
    (hPush : pushAll scope 0 [] (st.output ++ os.map .op) = .ok operands) :
    Closed below operands tokens := by
  have hPending : pending.isSome → os ≠ [] := by
    rintro hSome rfl
    obtain ⟨o, rfl⟩ := Option.isSome_iff_exists.mp hSome
    obtain ⟨rest, hTop⟩ := h.pending hExpecting
    exact hBelow o rest rfl (hStack.symm.trans hTop)
  obtain ⟨before, hBefore, h⟩ := h
  rw [hExpecting, hStack] at h
  obtain ⟨middle, hMiddle, hFlush⟩ := pushAll_append_ok.mp hPush
  rw [hBefore] at hMiddle
  cases hMiddle
  exact Trailing.flush h hPending hFlush

theorem Reads.operand {scope : List String} {pending : Option Operator} {st : State}
    {read tokens : List Token} {item : Item} {operands : List Expr}
    (h : Reads scope pending st read) (hExpecting : st.expecting = true)
    (hPush : pushAll scope 0 [] (st.output ++ [item]) = .ok operands)
    (hItem : ∀ index stack operands, push scope index stack item = .ok operands →
      ∃ e, operands = e :: stack ∧ InOrder e tokens) :
    Closed st.stack operands (read ++ tokens) := by
  obtain ⟨before, hBefore, hSpine⟩ := h.spine hExpecting
  obtain ⟨middle, hMiddle, hLast⟩ := pushAll_append_ok.mp hPush
  rw [hBefore] at hMiddle
  cases hMiddle
  rw [pushAll_singleton] at hLast
  obtain ⟨e, rfl, ha⟩ := hItem _ _ _ hLast
  exact ⟨e, before, read, tokens, rfl, hSpine, ha, rfl⟩

theorem Reads.behind {scope : List String} {pending : Option Operator} {st : State}
    {read : List Token} {o : Operator} {os : List Operator} {below : List Waiting}
    {operands : List Expr} (h : Reads scope pending st read) (hExpecting : st.expecting = false)
    (hFixity : o.fixity ≠ .before) (hFlush : flushTighter o st.stack = (os, below))
    (hSettled : ∀ top, pending = some top → top.precedence ≤ o.precedence)
    (hPush : pushAll scope 0 [] (st.output ++ os.map .op) = .ok operands) :
    ∃ pending', Reads scope pending'
        ⟨st.index + 1, st.output ++ os.map .op, .op o :: below, o.expectsOperand⟩
        (read ++ [.op o]) ∧
      ∀ top, pending' = some top → top = o ∧ o.expectsOperand = false := by
  have hStack := flushTighter_append o st.stack
  rw [hFlush] at hStack
  have hBelow : ∀ top rest, pending = some top → below ≠ .op top :: rest := by
    rintro top rest hPending rfl
    exact Nat.not_le_of_lt (lt_of_flushTighter hFlush) (hSettled top hPending)
  have hClosed := h.flush hExpecting hStack hBelow hPush
  cases hOpen : o.expectsOperand with
  | true =>
    have hBetween : o.fixity = .between := by
      cases o <;> first | rfl | exact absurd rfl hFixity | cases hOpen
    obtain ⟨a, rest, left, right, rfl, hSpine, ha, rfl⟩ := hClosed
    refine ⟨none, spine_reads hPush rfl ?_, by simp⟩
    simpa using Spine.between hBetween hSpine ha
  | false =>
    refine ⟨some o, ⟨operands, hPush, below, read, rfl, hOpen, hClosed, rfl⟩, ?_⟩
    intro top hTop
    cases hTop
    exact ⟨rfl, rfl⟩

/-- A step keeps the reading up, and leaves pending only an operator read behind its operand. -/
theorem Step.reads {scope : List String} {pending : Option Operator} {st st' : State}
    {next : Option Token} {token : Token} {read : List Token} {operands : List Expr}
    (h : Step st next token st') (hFits : token.fits st.expecting = true)
    (hReads : Reads scope pending st read)
    (hSettled : ∀ o o', pending = some o → token = .op o' → o.precedence ≤ o'.precedence)
    (hPush : pushAll scope 0 [] st'.output = .ok operands) :
    ∃ pending', Reads scope pending' st' (read ++ token.spelledOut st.expecting next) ∧
      ∀ o, pending' = some o → token = .op o ∧ st.expecting = false ∧ o.expectsOperand = false := by
  cases h with
  | word text =>
    have hExpecting : st.expecting = true := by simpa [Token.fits] using hFits
    refine ⟨none, closed_reads hPush rfl (hReads.operand hExpecting hPush ?_), by simp⟩
    intro index stack operands hItem
    obtain ⟨e, hOperand, hResult⟩ := bind_eq_ok.mp hItem
    cases hResult
    exact ⟨e, rfl, inOrder_operand hOperand⟩
  | element =>
    have hExpecting : st.expecting = true := by simpa [Token.fits] using hFits
    refine ⟨none, closed_reads hPush rfl (hReads.operand hExpecting hPush ?_), by simp⟩
    intro index stack operands hItem
    cases hItem
    exact ⟨_, rfl, .element⟩
  | openGroup =>
    have hExpecting : st.expecting = true := by simpa [Token.fits] using hFits
    obtain ⟨before, hBefore, hSpine⟩ := hReads.spine hExpecting
    refine ⟨none, spine_reads hBefore rfl ?_, by simp⟩
    simpa [Token.spelledOut] using hSpine.group
  | closeGroup os below hStack =>
    have hExpecting : st.expecting = false := by simpa [Token.fits] using hFits
    obtain ⟨a, rest, left, right, rfl, hSpine, ha, rfl⟩ :=
      hReads.flush hExpecting hStack (by simp) hPush
    refine ⟨none, closed_reads hPush rfl ?_, by simp⟩
    cases hSpine with
    | group hSpine => exact ⟨a, rest, left, right, rfl, hSpine, ha, by simp [Token.spelledOut]⟩
  | comma os below hStack => cases hFits
  | root o hExpecting hDot hNext =>
    refine ⟨none, closed_reads hPush rfl (hReads.operand hExpecting hPush ?_), by simp⟩
    intro index stack operands hItem
    cases hItem
    exact ⟨_, rfl, by simpa [Token.spelledOut, hExpecting, hDot, hNext] using .root⟩
  | access o hExpecting hDot hNext =>
    obtain ⟨before, hBefore, hSpine⟩ := hReads.spine hExpecting
    refine ⟨none, spine_reads hBefore rfl ?_, by simp⟩
    simpa [Token.spelledOut, hExpecting, hDot, hNext] using hSpine.access
  | negation hExpecting =>
    obtain ⟨before, hBefore, hSpine⟩ := hReads.spine hExpecting
    refine ⟨none, spine_reads hBefore rfl ?_, by simp⟩
    simpa [Token.spelledOut, Operator.isDot] using hSpine.negation
  | behind o os below hExpecting hFixity hFlush =>
    obtain ⟨pending', hReads', hOpen⟩ :=
      hReads.behind hExpecting hFixity hFlush (fun top h => hSettled top o h rfl) hPush
    refine ⟨pending', by simpa [Token.spelledOut, hExpecting] using hReads', fun top h => ?_⟩
    obtain ⟨rfl, hOpen⟩ := hOpen top h
    exact ⟨rfl, hExpecting, hOpen⟩

theorem run_reads {scope : List String} {pending : Option Operator} {st final : State}
    {tokens read : List Token} {operands : List Expr} (hRun : run st tokens = .ok final)
    (hAlternates : alternates st.expecting tokens = true)
    (hSettled : settled st.expecting tokens = true) (hReads : Reads scope pending st read)
    (hPending : ∀ o o', pending = some o → tokens.head? = some (.op o') →
      o.precedence ≤ o'.precedence)
    (hPush : pushAll scope 0 [] final.output = .ok operands) :
    final.expecting = false ∧
      ∃ pending', Reads scope pending' final (read ++ spelledOut st.expecting tokens) := by
  induction tokens generalizing pending st read with
  | nil =>
    cases hRun
    exact ⟨by simpa [alternates] using hAlternates, pending, by simpa [spelledOut] using hReads⟩
  | cons token rest ih =>
    obtain ⟨st', hStep, hRest⟩ := run_cons_ok hRun
    simp only [alternates, settled, Bool.and_eq_true] at hAlternates hSettled
    rw [← hStep.expecting_eq] at hAlternates hSettled
    obtain ⟨more, hMore⟩ := prefix_run_output hRest
    rw [← hMore] at hPush
    obtain ⟨middle, hMiddle, _⟩ := pushAll_append_ok.mp hPush
    obtain ⟨pending', hReads', hTrailing⟩ := hStep.reads hAlternates.1 hReads
      (fun o o' hSome hToken => hPending o o' hSome (by rw [hToken]; rfl)) hMiddle
    have hNext : ∀ o o', pending' = some o → rest.head? = some (.op o') →
        o.precedence ≤ o'.precedence := by
      intro o o' hSome hHead
      obtain ⟨rfl, hExpecting, hOpen⟩ := hTrailing o hSome
      obtain hBefore | hBefore | hNext := Token.settles_op.mp hSettled.1
      · rw [hExpecting] at hBefore
        cases hBefore
      · rw [hOpen] at hBefore
        cases hBefore
      · exact hNext o' hHead
    obtain ⟨hFinal, pending'', hReads''⟩ := ih hRest hAlternates.2 hSettled.2 hReads' hNext
    refine ⟨hFinal, pending'', ?_⟩
    rw [spelledOut, ← List.append_assoc, ← hStep.expecting_eq]
    exact hReads''

end Postorder

theorem inOrder_of_settled {scope : List String} {tokens : List Token} {items : List Item}
    {e : Expr} (hAlternates : alternates true tokens = true) (hSettled : settled true tokens = true)
    (hItems : postorder tokens = .ok items) (hBuild : build scope items = .ok e) :
    InOrder e (spelledOut true tokens) := by
  obtain ⟨final, os, hRun, hStack, rfl⟩ := postorder_ok hItems
  obtain ⟨hPush, _⟩ := build_ok.mp hBuild
  obtain ⟨middle, hMiddle, _⟩ := pushAll_append_ok.mp hPush
  have hStart : Postorder.Reads scope none .start [] := Postorder.spine_reads rfl rfl .nil
  obtain ⟨hExpecting, pending, hReads⟩ :=
    Postorder.run_reads hRun hAlternates hSettled hStart (by simp) hMiddle
  obtain ⟨a, rest, left, right, hOperands, hSpine, ha, hTokens⟩ :=
    hReads.flush hExpecting (hStack.trans (List.append_nil _).symm) (by simp) hPush
  cases hOperands
  cases hSpine
  have hRight : spelledOut true tokens = right := hTokens
  rw [hRight]
  exact ha

end Reshape.Expression
