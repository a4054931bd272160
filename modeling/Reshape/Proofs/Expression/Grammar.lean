import Reshape.Proofs.Expression.Shape

/-!
# The grammar of token lists

The parser counts operands and operators over the whole list, so an operand too many in one place
makes up for one that is missing in another. A list without an operand too many is accepted only if
none is missing.
-/

namespace Reshape.Expression

/--
The rest of an expression, with the number of operands that it lacks, where an operand is expected
or behind one. The operator behind a group of two arguments ends its expression.
-/
inductive Phrase : Nat → Bool → List Token → Prop
  | done : Phrase 0 false []
  | missing : Phrase 1 true []
  | between {n : Nat} {o : Operator} {rest : List Token} (hFixity : o.fixity = .between)
    (h : Phrase n true rest) : Phrase n false (.op o :: rest)
  | behind {n : Nat} {o : Operator} {rest : List Token}
    (hFixity : o.fixity = .after ∨ o.fixity = .either) (h : Phrase n false rest) :
    Phrase n false (.op o :: rest)
  | word {n : Nat} {rest : List Token} (text : String) (h : Phrase n false rest) :
    Phrase n true (.word text :: rest)
  | element {n : Nat} {rest : List Token} (h : Phrase n false rest) :
    Phrase n true (.element :: rest)
  | group {m n : Nat} {inner rest : List Token} (hInner : Phrase m true inner)
    (h : Phrase n false rest) : Phrase (m + n) true (.openGroup :: inner ++ .closeGroup :: rest)
  | root {n : Nat} {o : Operator} {rest : List Token} (hDot : o.isDot = true)
    (hNext : rest.head?.any Token.startsOperand = false) (h : Phrase n false rest) :
    Phrase n true (.op o :: rest)
  | access {n : Nat} {o : Operator} {rest : List Token} (hDot : o.isDot = true)
    (hNext : rest.head?.any Token.startsOperand = true) (h : Phrase n true rest) :
    Phrase n true (.op o :: rest)
  | negation {n : Nat} {rest : List Token} (h : Phrase n true rest) :
    Phrase n true (.op .not :: rest)
  | arguments {m n : Nat} {left right : List Token} {o : Operator} (hLeft : Phrase m true left)
    (hRight : Phrase n true right) (hFixity : o.fixity = .between) :
    Phrase (m + n) true
      (.openGroup :: left ++ .comma :: right ++ [.closeGroup, .op o])

def Sentence (tokens : List Token) : Prop := Phrase 0 true tokens

def Item.weight : Item → Int
  | .op o => if o.fixity = .between then -1 else 0
  | _ => 1

def balance : List Item → Int
  | [] => 0
  | item :: items => item.weight + balance items

@[simp]
theorem balance_append (xs ys : List Item) : balance (xs ++ ys) = balance xs + balance ys := by
  induction xs with
  | nil => exact (Int.zero_add _).symm
  | cons item items ih =>
    rw [List.cons_append, balance, balance, ih]
    omega

theorem length_push {scope : List String} {index : Nat} {stack stack' : List Expr} {item : Item}
    (h : push scope index stack item = .ok stack') :
    (stack'.length : Int) = stack.length + item.weight := by
  cases item with
  | word text =>
    obtain ⟨e, _, hResult⟩ := bind_eq_ok.mp h
    cases hResult
    simp [Item.weight]
  | element => cases h; simp [Item.weight]
  | root => cases h; simp [Item.weight]
  | op o =>
    obtain ⟨hFixity, e, a, b, rest, rfl, rfl, _⟩ | ⟨hFixity, e, a, rest, rfl, rfl, _⟩ := reduce_ok h
    · simp only [Item.weight, hFixity, if_true, List.length_cons]
      omega
    · simp only [Item.weight, hFixity, if_false, List.length_cons]
      omega

theorem length_pushAll {scope : List String} {index : Nat} {stack stack' : List Expr}
    {items : List Item} (h : pushAll scope index stack items = .ok stack') :
    (stack'.length : Int) = stack.length + balance items := by
  induction items generalizing index stack with
  | nil => cases h; exact (Int.add_zero _).symm
  | cons item items ih =>
    obtain ⟨middle, hItem, hItems⟩ := pushAll_cons_ok.mp h
    rw [ih hItems, length_push hItem, balance]
    omega

theorem balance_of_build {scope : List String} {items : List Item} {e : Expr}
    (h : build scope items = .ok e) : balance items = 1 := by
  have hLength := length_pushAll (build_ok.mp h).1
  simp only [List.length_cons, List.length_nil] at hLength
  omega

def waitingItems : List Waiting → List Item
  | [] => []
  | .group :: rest => waitingItems rest
  | .op o :: rest => .op o :: waitingItems rest

@[simp]
theorem waitingItems_append (os : List Operator) (below : List Waiting) :
    waitingItems (os.map .op ++ below) = os.map .op ++ waitingItems below := by
  induction os with
  | nil => rfl
  | cons o os ih => simpa [waitingItems] using ih

@[simp]
theorem waitingItems_map (os : List Operator) : waitingItems (os.map .op) = os.map .op := by
  simpa [waitingItems] using waitingItems_append os []

def Token.gain (expecting : Bool) (next : Option Token) : Token → Int
  | .word _ => 1
  | .element => 1
  | .op o =>
    if expecting then if o.isDot && !next.any startsOperand then 1 else 0
    else (Item.op o).weight
  | _ => 0

namespace Postorder

def State.worth (st : State) : Int := balance (st.output ++ waitingItems st.stack)

theorem Step.worth_eq {st st' : State} {next : Option Token} {token : Token}
    (h : Step st next token st') : st'.worth = st.worth + token.gain st.expecting next := by
  cases h with
  | word _ | element =>
    simp [State.worth, Token.gain, balance, Item.weight]
    omega
  | openGroup => simp [State.worth, Token.gain, waitingItems]
  | closeGroup os below hStack | comma os below hStack =>
    simp [State.worth, Token.gain, hStack, waitingItems]
  | root o hExpecting hDot hNext =>
    simp [State.worth, Token.gain, hExpecting, hDot, hNext, balance, Item.weight]
    omega
  | access o hExpecting hDot hNext =>
    simp [State.worth, Token.gain, hExpecting, hNext, waitingItems, balance, Item.weight,
      Operator.fixity]
  | negation hExpecting =>
    simp [State.worth, Token.gain, hExpecting, waitingItems, balance, Item.weight,
      Operator.fixity, Operator.isDot]
  | behind o os below hExpecting hFixity hFlush =>
    have hStack := flushTighter_append o st.stack
    rw [hFlush] at hStack
    simp [State.worth, Token.gain, hExpecting, hStack, waitingItems, balance]
    omega

theorem worth_of_run_cons {st final : State} {token : Token} {rest tail : List Token}
    (h : run st (token :: rest ++ tail) = .ok final) :
    ∃ st', run st' (rest ++ tail) = .ok final ∧
      st'.expecting = token.awaits st.expecting (rest ++ tail).head? ∧
      st'.worth = st.worth + token.gain st.expecting (rest ++ tail).head? := by
  rw [List.cons_append] at h
  obtain ⟨st', hStep, hRest⟩ := run_cons_ok h
  exact ⟨st', hRest, hStep.expecting_eq, hStep.worth_eq⟩

theorem worth_of_phrase {n : Nat} {expecting : Bool} {tokens tail : List Token}
    (h : Phrase n expecting tokens) {st final : State} (hExpecting : st.expecting = expecting)
    (hTail : tail.head?.any Token.startsOperand = false)
    (hRun : run st (tokens ++ tail) = .ok final) :
    ∃ st', run st' tail = .ok final ∧ st'.worth = st.worth + expecting.toNat - n := by
  -- `hTail` is for a dot that ends the phrase: it must not find an operand in the tail.
  induction h generalizing st tail with
  | done => exact ⟨st, hRun, by simp⟩
  | missing => exact ⟨st, hRun, by simp⟩
  | between hFixity _ ih =>
    obtain ⟨middle, hRest, hAwaits, hWorth⟩ := worth_of_run_cons hRun
    have hTrue : middle.expecting = true := by
      simpa [hExpecting, Token.awaits, Operator.expectsOperand, hFixity] using hAwaits
    obtain ⟨st', hRun', hWorth'⟩ := ih hTrue hTail hRest
    simp only [hExpecting, Token.gain, Item.weight, hFixity, Bool.false_eq_true, if_true,
      if_false] at hWorth
    simp only [Bool.toNat_true, Bool.toNat_false] at hWorth' ⊢
    exact ⟨st', hRun', by omega⟩
  | behind hFixity _ ih =>
    obtain ⟨middle, hRest, hAwaits, hWorth⟩ := worth_of_run_cons hRun
    obtain ⟨st', hRun', hWorth'⟩ := ih
      (by rcases hFixity with h | h <;>
        simpa [hExpecting, Token.awaits, Operator.expectsOperand, h] using hAwaits) hTail hRest
    have hZero : middle.worth = st.worth := by
      rcases hFixity with h | h <;> simpa [hExpecting, Token.gain, Item.weight, h] using hWorth
    exact ⟨st', hRun', by rw [hWorth', hZero]⟩
  | word _ _ ih | element _ ih =>
    obtain ⟨middle, hRest, hAwaits, hWorth⟩ := worth_of_run_cons hRun
    obtain ⟨st', hRun', hWorth'⟩ := ih hAwaits hTail hRest
    simp only [Token.gain] at hWorth
    simp only [Bool.toNat_true, Bool.toNat_false] at hWorth' ⊢
    exact ⟨st', hRun', by omega⟩
  | @group m n inner rest _ _ ihInner ih =>
    rw [List.append_assoc] at hRun
    obtain ⟨opened, hInner, hAwaits, hWorth⟩ := worth_of_run_cons hRun
    obtain ⟨closing, hClosing, hWorthInner⟩ := ihInner hAwaits rfl hInner
    obtain ⟨closed, hRest, hAwaits', hWorth'⟩ := worth_of_run_cons hClosing
    obtain ⟨st', hRun', hWorthRest⟩ := ih hAwaits' hTail hRest
    simp only [Token.gain] at hWorth hWorth'
    simp only [Bool.toNat_true, Bool.toNat_false] at hWorthInner hWorthRest ⊢
    exact ⟨st', hRun', by omega⟩
  | root hDot hNext _ ih =>
    obtain ⟨middle, hRest, hAwaits, hWorth⟩ := worth_of_run_cons hRun
    rw [← head?_append_any hTail] at hNext
    simp only [hExpecting, Token.awaits, Token.gain, hDot, hNext, if_true] at hAwaits hWorth
    obtain ⟨st', hRun', hWorth'⟩ := ih hAwaits hTail hRest
    simp only [Bool.not_false, Bool.and_true, if_true] at hWorth
    simp only [Bool.toNat_true, Bool.toNat_false] at hWorth' ⊢
    exact ⟨st', hRun', by omega⟩
  | access hDot hNext _ ih =>
    obtain ⟨middle, hRest, hAwaits, hWorth⟩ := worth_of_run_cons hRun
    rw [← head?_append_any hTail] at hNext
    simp only [hExpecting, Token.awaits, Token.gain, hDot, hNext, if_true] at hAwaits hWorth
    obtain ⟨st', hRun', hWorth'⟩ := ih hAwaits hTail hRest
    simp only [Bool.not_true, Bool.and_false, Bool.false_eq_true, if_false] at hWorth
    exact ⟨st', hRun', by omega⟩
  | negation _ ih =>
    obtain ⟨middle, hRest, hAwaits, hWorth⟩ := worth_of_run_cons hRun
    simp [hExpecting, Token.awaits, Token.gain, Operator.isDot] at hAwaits hWorth
    obtain ⟨st', hRun', hWorth'⟩ := ih hAwaits hTail hRest
    exact ⟨st', hRun', by rw [hWorth', hWorth]⟩
  | arguments _ _ hFixity ihLeft ihRight =>
    rw [List.append_assoc, List.append_assoc] at hRun
    obtain ⟨opened, hLeft, hAwaits, hOpen⟩ := worth_of_run_cons hRun
    obtain ⟨middle, hRun, hLeft⟩ := ihLeft hAwaits rfl hLeft
    obtain ⟨parted, hRight, hAwaits, hComma⟩ := worth_of_run_cons hRun
    obtain ⟨closing, hRun, hRight⟩ := ihRight hAwaits rfl hRight
    obtain ⟨closed, hRun, hAwaits, hClose⟩ := worth_of_run_cons hRun
    obtain ⟨st', hRun, _, hOperator⟩ := worth_of_run_cons hRun
    rw [hAwaits] at hOperator
    simp only [Token.awaits, Token.gain, Item.weight, hFixity, Bool.false_eq_true, if_true,
      if_false] at hOpen hComma hClose hOperator
    simp only [Bool.toNat_true] at hLeft hRight ⊢
    exact ⟨st', hRun, by omega⟩

end Postorder

theorem balance_postorder {n : Nat} {tokens : List Token} {items : List Item}
    (h : Phrase n true tokens) (hItems : postorder tokens = .ok items) :
    balance items = 1 - n := by
  obtain ⟨final, os, hRun, hStack, rfl⟩ := postorder_ok hItems
  rw [← List.append_nil tokens] at hRun
  obtain ⟨st', hDone, hWorth⟩ := Postorder.worth_of_phrase h rfl rfl hRun
  cases hDone
  rw [show Postorder.State.start.worth = 0 from rfl, Postorder.State.worth, hStack] at hWorth
  simpa using hWorth

/--
What the parser accepts is a sentence just if it is one but for operands that are missing: no
operand directly behind another, and each comma between the two arguments of a group that an
operator without further operands follows.
-/
theorem sentence_iff_of_build {scope : List String} {tokens : List Token} {items : List Item}
    {e : Expr} (hItems : postorder tokens = .ok items) (hBuild : build scope items = .ok e) :
    Sentence tokens ↔ ∃ n, Phrase n true tokens := by
  constructor
  · intro h
    exact ⟨0, h⟩
  · rintro ⟨n, h⟩
    have hBalance := balance_postorder h hItems
    rw [balance_of_build hBuild] at hBalance
    obtain rfl : n = 0 := by omega
    exact h

/-- The tokens `((a, b) +) | c`. -/
theorem sentence_iff_of_build_arguments :
    let tokens := [.openGroup, .openGroup, .word "a", .comma, .word "b", .closeGroup, .op .add,
      .closeGroup, .op .or, .word "c"]
    let items := [.word "a", .word "b", .op .add, .word "c", .op .or]
    let e := Expr.or (.add (.literal (.string "a")) (.literal (.string "b")))
      (.literal (.string "c"))
    postorder tokens = .ok items ∧ build [] items = .ok e ∧
      (Sentence tokens ↔ ∃ n, Phrase n true tokens) := by
  intro tokens items e
  have hItems : postorder tokens = .ok items := rfl
  have hBuild : build [] items = .ok e := rfl
  exact ⟨hItems, hBuild, sentence_iff_of_build hItems hBuild⟩

theorem not_phrase_adjacent (n : Nat) (text : String) (rest : List Token) :
    ¬ Phrase n true (.word text :: .openGroup :: rest) := by
  intro h
  cases h with
  | word _ h => cases h

/-- The tokens `a (b) +` are read as `a + b`. -/
theorem build_adjacent_operands :
    let tokens := [.word "a", .openGroup, .word "b", .closeGroup, .op .add]
    let e := Expr.add (.literal (.string "a")) (.literal (.string "b"))
    (∃ items, postorder tokens = .ok items ∧ build [] items = .ok e) ∧ ¬ Sentence tokens :=
  ⟨⟨_, rfl, rfl⟩, not_phrase_adjacent 0 _ _⟩

end Reshape.Expression
