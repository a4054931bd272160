import Mathlib.Data.List.ReduceOption
import Mathlib.Data.List.Perm.Basic
import Reshape.Proofs.Expression.Postorder

/-!
# Where the items of a postorder come from

Each token stands for one item, or for none if it is a parenthesis or a comma. An operator keeps the
index of its token while it waits and when it is put out. So a postorder has the items of the tokens
in another order: nothing is lost and nothing is made up.
-/

namespace Reshape.Expression

def Item.isOperand : Item → Bool
  | .op _ => false
  | _ => true

def Token.isPunctuation : Token → Bool
  | .openGroup => true
  | .closeGroup => true
  | .comma => true
  | _ => false

/--
What a token stands for, given whether an operand must come in its place and the token behind it. A
dot in the place of an operand is an access of the root, or the root alone.
-/
def Token.item? (expecting : Bool) (next : Option Token) : Token → Option Item
  | .word text => some (.word text)
  | .element => some .element
  | .op o =>
    if expecting && o.isDot then
      some (if next.any Token.startsOperand then .op .rootField else .root)
    else some (.op o)
  | _ => none

def itemsFrom : Bool → List Token → List (Option Item)
  | _, [] => []
  | expecting, token :: rest =>
    token.item? expecting rest.head? :: itemsFrom (token.awaits expecting rest.head?) rest

/-- What the tokens of an expression stand for, each in its place. -/
def itemsOf (tokens : List Token) : List (Option Item) := itemsFrom true tokens

/-- What a token stands for, and the index of the token. -/
abbrev Origin := Option Item × Nat

def Waiting.item? : Waiting → Option Item
  | .op o => some (.op o)
  | .group => none

namespace Postorder

/-- The origins of what is put out and of what waits. -/
structure Trace where
  output : List Origin
  stack : List Origin

namespace Trace

def put (t : Trace) (origin : Origin) : Trace := ⟨t.output ++ [origin], t.stack⟩

def wait (t : Trace) (origin : Origin) : Trace := ⟨t.output, origin :: t.stack⟩

def flush (t : Trace) (count : Nat) : Trace :=
  ⟨t.output ++ t.stack.take count, t.stack.drop count⟩

def flushGroup (t : Trace) (stack : List Waiting) : Trace :=
  t.flush (((flushGroup? stack).map fun flushed => flushed.1.length).getD 0)

def closeGroup (t : Trace) : Trace := ⟨t.output, t.stack.tail⟩

/-- The origins after a step; the operators that it puts out take theirs with them. -/
def step (t : Trace) (st : State) (next : Option Token) (token : Token) : Trace :=
  let origin := (token.item? st.expecting next, st.index)
  match token with
  | .word _ => t.put origin
  | .element => t.put origin
  | .openGroup => t.wait origin
  | .closeGroup => (t.flushGroup st.stack).closeGroup
  | .comma => t.flushGroup st.stack
  | .op o =>
    if st.expecting then
      if origin.1 = some .root then t.put origin else t.wait origin
    else (t.flush (flushTighter o st.stack).1.length).wait origin

/-- There is an origin for all that is put out and waits: those in `done` that are items. -/
structure Follows (t : Trace) (output : List Item) (stack : List Waiting) (done : List Origin) :
    Prop where
  output_eq : t.output.map Prod.fst = output.map some
  stack_eq : t.stack.map Prod.fst = stack.map Waiting.item?
  perm : ((t.output ++ t.stack).filter (·.1.isSome)).Perm (done.filter (·.1.isSome))

variable {t : Trace} {output : List Item} {stack below : List Waiting} {done : List Origin}

theorem Follows.perm_concat (h : t.Follows output stack done) (origin : Origin) :
    ((t.output ++ origin :: t.stack).filter (·.1.isSome)).Perm
      ((done ++ [origin]).filter (·.1.isSome)) := by
  have hMiddle : (t.output ++ origin :: t.stack).Perm (t.output ++ t.stack ++ [origin]) := by
    rw [List.append_assoc]
    exact (List.perm_append_singleton origin t.stack).symm.append_left t.output
  refine (hMiddle.filter _).trans ?_
  rw [List.filter_append, List.filter_append done]
  exact h.perm.append_right _

theorem Follows.put (h : t.Follows output stack done) (item : Item) (index : Nat) :
    (t.put (some item, index)).Follows (output ++ [item]) stack (done ++ [(some item, index)]) where
  output_eq := by simp [Trace.put, h.output_eq]
  stack_eq := h.stack_eq
  perm := by simpa [Trace.put] using h.perm_concat (some item, index)

theorem Follows.wait (h : t.Follows output stack done) (waiting : Waiting) (index : Nat) :
    (t.wait (waiting.item?, index)).Follows output (waiting :: stack)
      (done ++ [(waiting.item?, index)]) where
  output_eq := h.output_eq
  stack_eq := by simp [Trace.wait, h.stack_eq]
  perm := h.perm_concat (waiting.item?, index)

theorem Follows.punctuation (h : t.Follows output stack done) (index : Nat) :
    t.Follows output stack (done ++ [(none, index)]) where
  output_eq := h.output_eq
  stack_eq := h.stack_eq
  perm := by simpa [List.filter_append] using h.perm

theorem Follows.flush {os : List Operator} (h : t.Follows output (os.map .op ++ below) done) :
    (t.flush os.length).Follows (output ++ os.map .op) below done where
  output_eq := by
    have hTake : (t.stack.take os.length).map Prod.fst = (os.map Item.op).map some := by
      rw [List.map_take, h.stack_eq, List.map_append, List.take_left' (by simp), List.map_map,
        List.map_map]
      rfl
    rw [Trace.flush, List.map_append, List.map_append, h.output_eq, hTake]
  stack_eq := by
    rw [Trace.flush, List.map_drop, h.stack_eq, List.map_append, List.drop_left' (by simp)]
  perm := by
    rw [Trace.flush, List.append_assoc, List.take_append_drop]
    exact h.perm

theorem Follows.closeGroup (h : t.Follows output (.group :: below) done) :
    t.closeGroup.Follows output below done where
  output_eq := h.output_eq
  stack_eq := by rw [Trace.closeGroup, List.map_tail, h.stack_eq, List.map_cons, List.tail_cons]
  perm := by
    obtain ⟨origin, rest, hStack, hOrigin, _⟩ := List.map_eq_cons_iff.mp h.stack_eq
    have hPerm := h.perm
    have hNone : origin.1.isSome = false := by rw [hOrigin]; rfl
    rw [hStack, List.filter_append, List.filter_cons, hNone] at hPerm
    rw [Trace.closeGroup, hStack, List.tail_cons, List.filter_append]
    exact hPerm

theorem flushGroup_eq (t : Trace) (os : List Operator) (below : List Waiting) :
    t.flushGroup (os.map .op ++ .group :: below) = t.flush os.length := by
  simp [flushGroup]

theorem Follows.step {st st' : State} {next : Option Token} {token : Token}
    (h : t.Follows st.output st.stack done) (hStep : Step st next token st') :
    (t.step st next token).Follows st'.output st'.stack
      (done ++ [(token.item? st.expecting next, st.index)]) := by
  cases hStep with
  | word text => exact h.put (.word text) st.index
  | element => exact h.put .element st.index
  | openGroup => exact h.wait .group st.index
  | closeGroup os below hStack =>
    rw [hStack] at h
    rw [Trace.step, hStack, flushGroup_eq]
    exact h.flush.closeGroup.punctuation st.index
  | comma os below hStack =>
    rw [hStack] at h
    rw [Trace.step, hStack, flushGroup_eq]
    exact h.flush.punctuation st.index
  | root o hExpecting hDot hNext =>
    have hItem : (Token.op o).item? true next = some .root := by
      simp [Token.item?, hDot, hNext]
    simp only [Trace.step, hExpecting, hItem, if_true]
    exact h.put .root st.index
  | access o hExpecting hDot hNext =>
    have hItem : (Token.op o).item? true next = some (.op .rootField) := by
      simp [Token.item?, hDot, hNext]
    simp only [Trace.step, hExpecting, hItem, if_true]
    exact h.wait (.op .rootField) st.index
  | negation hExpecting =>
    have hItem : (Token.op .not).item? true next = some (.op .not) := by
      simp [Token.item?, Operator.isDot]
    simp only [Trace.step, hExpecting, hItem, if_true]
    exact h.wait (.op .not) st.index
  | behind o os below hExpecting hFixity hFlush =>
    have hStack := flushTighter_append o st.stack
    rw [hFlush] at hStack
    rw [hStack] at h
    simp only [Trace.step, hExpecting, hFlush]
    exact h.flush.wait (.op o) st.index

end Trace

/-- The origins when the tokens have been read. -/
def traceFrom (st : State) (t : Trace) : List Token → Trace
  | [] => t
  | token :: rest =>
    match step st rest.head? token with
    | .error _ => t
    | .ok st' => traceFrom st' (t.step st rest.head? token) rest

theorem follows_traceFrom {st final : State} {t : Trace} {done : List Origin} {tokens : List Token}
    (hRun : run st tokens = .ok final) (h : t.Follows st.output st.stack done) :
    (traceFrom st t tokens).Follows final.output final.stack
      (done ++ (itemsFrom st.expecting tokens).zipIdx st.index) := by
  induction tokens generalizing st t done with
  | nil => cases hRun; simpa [itemsFrom, traceFrom] using h
  | cons token rest ih =>
    obtain ⟨st', hStep, hRest⟩ := run_cons_ok hRun
    have hTrace := ih hRest (h.step hStep)
    rw [hStep.expecting_eq, hStep.index_eq, List.append_assoc] at hTrace
    rw [traceFrom, hStep.step_eq]
    exact hTrace

end Postorder

/-- The origins of the items of a postorder. -/
def origins (tokens : List Token) : List Origin :=
  let t := Postorder.traceFrom .start ⟨[], []⟩ tokens
  t.output ++ t.stack

theorem origins_postorder {tokens : List Token} {items : List Item}
    (h : postorder tokens = .ok items) : (origins tokens).map Prod.fst = items.map some ∧
      (origins tokens).Perm ((itemsOf tokens).zipIdx.filter (·.1.isSome)) := by
  obtain ⟨final, os, hRun, hStack, rfl⟩ := postorder_ok h
  have hStart : Postorder.Trace.Follows ⟨[], []⟩ [] [] [] := ⟨rfl, rfl, .refl _⟩
  have hTrace := Postorder.follows_traceFrom hRun hStart
  have hItems : (origins tokens).map Prod.fst =
      (final.output ++ os.map Item.op).map some := by
    rw [origins, List.map_append, hTrace.output_eq, hTrace.stack_eq, hStack, List.map_append,
      List.map_map, List.map_map]
    rfl
  have hSome : ∀ origin ∈ origins tokens, origin.1.isSome = true := by
    intro origin hOrigin
    have hItem := List.mem_map_of_mem (f := Prod.fst) hOrigin
    rw [hItems] at hItem
    obtain ⟨item, _, hEq⟩ := List.mem_map.mp hItem
    rw [← hEq]
    rfl
  have hPerm : ((origins tokens).filter (·.1.isSome)).Perm
      ((itemsOf tokens).zipIdx.filter (·.1.isSome)) := hTrace.perm
  rw [List.filter_eq_self.mpr hSome] at hPerm
  exact ⟨hItems, hPerm⟩

@[simp]
theorem filter_isOperand_map (os : List Operator) :
    (os.map Item.op).filter Item.isOperand = [] := by
  simp [List.filter_eq_nil_iff, Item.isOperand]

theorem Postorder.Step.operands_eq {st st' : State} {next : Option Token} {token : Token}
    (h : Step st next token st') : st'.output.filter Item.isOperand =
      st.output.filter Item.isOperand ++
        (token.item? st.expecting next).toList.filter Item.isOperand := by
  cases h with
  | word text | element => exact List.filter_append _ _
  | openGroup => exact (List.append_nil _).symm
  | closeGroup os below _ | comma os below _ => simp [Token.item?]
  | root o hExpecting hDot hNext =>
    simp [Token.item?, hExpecting, hDot, hNext]
  | access o hExpecting hDot hNext =>
    simp [Token.item?, hExpecting, hDot, hNext, Item.isOperand]
  | negation hExpecting => simp [Token.item?, Operator.isDot, Item.isOperand]
  | behind o os below hExpecting _ _ =>
    simp [Token.item?, hExpecting, Item.isOperand]

theorem operands_run {st final : Postorder.State} {tokens : List Token}
    (h : Postorder.run st tokens = .ok final) : final.output.filter Item.isOperand =
      st.output.filter Item.isOperand ++
        (itemsFrom st.expecting tokens).reduceOption.filter Item.isOperand := by
  induction tokens generalizing st with
  | nil => cases h; simp [itemsFrom]
  | cons token rest ih =>
    obtain ⟨st', hStep, hRest⟩ := Postorder.run_cons_ok h
    rw [ih hRest, hStep.expecting_eq, hStep.operands_eq, itemsFrom, ← List.singleton_append,
      List.reduceOption_append, List.reduceOption_singleton, List.filter_append,
      List.append_assoc]

@[simp]
theorem Token.isSome_item? (expecting : Bool) (next : Option Token) (token : Token) :
    (token.item? expecting next).isSome = !token.isPunctuation := by
  cases token with
  | op o =>
    rw [Token.item?]
    split <;> rfl
  | _ => rfl

@[simp]
theorem map_isSome_itemsFrom (expecting : Bool) (tokens : List Token) :
    (itemsFrom expecting tokens).map Option.isSome = tokens.map (!·.isPunctuation) := by
  induction tokens generalizing expecting with
  | nil => rfl
  | cons token rest ih => simp [itemsFrom, ih]

@[simp]
theorem length_itemsOf (tokens : List Token) : (itemsOf tokens).length = tokens.length := by
  have hLength := congrArg List.length (map_isSome_itemsFrom true tokens)
  rwa [List.length_map, List.length_map] at hLength

theorem countP_take_itemsOf (tokens : List Token) (k : Nat) :
    ((itemsOf tokens).take k).countP Option.isSome + (tokens.take k).countP Token.isPunctuation =
      (tokens.take k).length := by
  have hSome := congrArg (fun bs => (bs.take k).countP id) (map_isSome_itemsFrom true tokens)
  simp only [← List.map_take, List.countP_map, Function.id_comp] at hSome
  rw [itemsOf, hSome, List.length_eq_countP_add_countP Token.isPunctuation, Nat.add_comm]
  simp

theorem reduceOption_filter_isSome {α : Type} (xs : List (Option α)) :
    (xs.filter Option.isSome).reduceOption = xs.reduceOption := by
  rw [List.reduceOption, List.filterMap_filter]
  refine List.filterMap_congr fun x _ => ?_
  cases x <;> rfl

theorem perm_itemsOf {tokens : List Token} {items : List Item} (h : postorder tokens = .ok items) :
    items.Perm (itemsOf tokens).reduceOption := by
  obtain ⟨hItems, hOrigins⟩ := origins_postorder h
  have hPerm := (hOrigins.map Prod.fst).filterMap id
  have hFilter : ((itemsOf tokens).zipIdx.filter (·.1.isSome)).map Prod.fst =
      (itemsOf tokens).filter Option.isSome := by
    rw [← List.zipIdx_map_fst 0 (itemsOf tokens), List.filter_map, List.zipIdx_map_fst]
    rfl
  have hSelf : (items.map some).filterMap id = items := by simp [List.filterMap_map]
  rw [hItems, hFilter, hSelf] at hPerm
  rw [← reduceOption_filter_isSome]
  exact hPerm

theorem length_postorder {tokens : List Token} {items : List Item}
    (h : postorder tokens = .ok items) :
    items.length + tokens.countP Token.isPunctuation = tokens.length := by
  have hCount := countP_take_itemsOf tokens tokens.length
  rw [← length_itemsOf, List.take_length, length_itemsOf, List.take_length] at hCount
  rw [(perm_itemsOf h).length_eq, List.reduceOption_length_eq, ← List.countP_eq_length_filter]
  exact hCount

/--
A postorder puts out what each token stands for and nothing else: the operands in the order of the
tokens, each operator once.
-/
theorem postorder_perm {tokens : List Token} {items : List Item}
    (h : postorder tokens = .ok items) :
    items.Perm (itemsOf tokens).reduceOption ∧
      items.filter Item.isOperand = (itemsOf tokens).reduceOption.filter Item.isOperand ∧
      items.length + tokens.countP Token.isPunctuation = tokens.length := by
  refine ⟨perm_itemsOf h, ?_, length_postorder h⟩
  obtain ⟨final, os, hRun, _, rfl⟩ := postorder_ok h
  simp [operands_run hRun, itemsOf, Postorder.State.start]

/-- The tokens `(., $..k) !sortBy !@#`. -/
theorem postorder_perm_dots :
    let tokens := [.openGroup, .op .field, .comma, .op .rootField, .op .field, .word "k",
      .closeGroup, .op .sortBy, .op .not, .element, .op .dedup]
    let items := [.root, .word "k", .op .rootField, .op .rootField, .element, .op .dedup, .op .not,
      .op .sortBy]
    postorder tokens = .ok items ∧ items.Perm (itemsOf tokens).reduceOption ∧
      items.filter Item.isOperand = (itemsOf tokens).reduceOption.filter Item.isOperand ∧
      items.length + tokens.countP Token.isPunctuation = tokens.length := by
  intro tokens items
  have hItems : postorder tokens = .ok items := rfl
  exact ⟨hItems, postorder_perm hItems⟩

end Reshape.Expression
