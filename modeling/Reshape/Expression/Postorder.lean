import Reshape.Expression.Token

/-!
# Postorder

The items of an expression with each operator behind its operands. Operators wait on a stack until
one that binds looser, or the end of their group, comes.
-/

namespace Reshape.Expression

/-- `root` is a dot with nothing to access: the root itself. -/
inductive Item where
  | word (text : String)
  | element
  | root
  | op (o : Operator)
  deriving DecidableEq

inductive Waiting where
  | op (o : Operator)
  | group
  deriving DecidableEq

def Token.startsOperand : Token → Bool
  | .word _ => true
  | .element => true
  | .openGroup => true
  | .op o => o == .field || o.fixity == .before
  | .closeGroup => false
  | .comma => false

namespace Postorder

/-- The output so far, what waits (the newest first), and whether an operand must come next. -/
structure State where
  index : Nat
  output : List Item
  stack : List Waiting
  expecting : Bool

def State.start : State := ⟨0, [], [], true⟩

def flushGroup? : List Waiting → Option (List Operator × List Waiting)
  | [] => none
  | .group :: rest => some ([], .group :: rest)
  | .op o :: rest => (flushGroup? rest).map fun (os, below) => (o :: os, below)

/-- The waiting operators that bind at least as tight as `o`, and the stack without them. -/
def flushTighter (o : Operator) : List Waiting → List Operator × List Waiting
  | .op top :: rest =>
    if top.precedence ≤ o.precedence then
      let (os, below) := flushTighter o rest
      (top :: os, below)
    else ([], .op top :: rest)
  | stack => ([], stack)

/-- An operator where an operand should come. A dot there is an access of the root. -/
def stepBefore (st : State) (o : Operator) (next : Option Token) : Except Fault State :=
  let o := if o = .field then .rootField else o
  match o.fixity with
  | .between => .error (.malformed st.index (.missingLeftOperand o))
  | .after => .error (.malformed st.index (.missingLeftOperand o))
  | _ =>
    if o = .rootField ∧ !(next.any Token.startsOperand) then
      .ok { st with index := st.index + 1, output := st.output ++ [.root], expecting := false }
    else .ok { st with index := st.index + 1, stack := .op o :: st.stack }

def stepBehind (st : State) (o : Operator) : Except Fault State :=
  if o.fixity = .before then .error (.malformed st.index (.unexpectedOperator o))
  else
    let (os, below) := flushTighter o st.stack
    .ok ⟨st.index + 1, st.output ++ os.map .op, .op o :: below, o.expectsOperand⟩

def step (st : State) (next : Option Token) : Token → Except Fault State
  | .word text => .ok ⟨st.index + 1, st.output ++ [.word text], st.stack, false⟩
  | .element => .ok ⟨st.index + 1, st.output ++ [.element], st.stack, false⟩
  | .openGroup => .ok ⟨st.index + 1, st.output, .group :: st.stack, true⟩
  | .closeGroup =>
    match flushGroup? st.stack with
    | none => .error (.malformed st.index .unopenedGroup)
    | some (os, below) => .ok ⟨st.index + 1, st.output ++ os.map .op, below.tail, false⟩
  | .comma =>
    match flushGroup? st.stack with
    | none => .error (.malformed st.index .commaOutsideGroup)
    | some (os, below) => .ok ⟨st.index + 1, st.output ++ os.map .op, below, true⟩
  | .op o => if st.expecting then stepBefore st o next else stepBehind st o

def run (st : State) : List Token → Except Fault State
  | [] => .ok st
  | token :: rest => do run (← step st rest.head? token) rest

def flushAll? : List Waiting → Option (List Operator)
  | [] => some []
  | .group :: _ => none
  | .op o :: rest => (flushAll? rest).map (o :: ·)

def finish (st : State) : Except Fault (List Item) :=
  match flushAll? st.stack with
  | none => .error (.malformed st.index .unclosedGroup)
  | some os => .ok (st.output ++ os.map .op)

end Postorder

def postorder (tokens : List Token) : Except Fault (List Item) := do
  Postorder.finish (← Postorder.run .start tokens)

end Reshape.Expression
