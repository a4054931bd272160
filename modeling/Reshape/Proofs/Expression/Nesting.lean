import Mathlib.Data.Nat.Find
import Reshape.Proofs.Expression.FaultIndex
import Reshape.Proofs.Expression.Legible

/-!
# Nesting of groups

The scanner counts the groups that are open and the parser keeps them on its stack. Both counts are
those of the parentheses in the text: the scanner stops at the first one that closes nothing, and
behind it the parser can only find groups that are left open.
-/

namespace Reshape

theorem Operator.parentheses_not_mem_letters (o : Operator) :
    '(' ∉ o.letters ∧ ')' ∉ o.letters := by
  cases o <;> decide

namespace Expression

/-! ## Parentheses of a text -/

/-- More groups are closed than are open, `depth` of them from before. -/
def Exceeds (depth : Nat) (s : List Char) : Prop := depth + s.count '(' < s.count ')'

def groupsAfter (depth : Nat) (c : Char) : Nat :=
  if c = '(' then depth + 1 else if c = ')' then depth - 1 else depth

/-- The place of the first parenthesis that closes nothing. -/
def unopened? (depth : Nat) : List Char → Option Nat
  | [] => none
  | c :: rest =>
    if c = ')' ∧ depth = 0 then some 0
    else (unopened? (groupsAfter depth c) rest).map (· + 1)

theorem not_exceeds_nil (depth : Nat) : ¬ Exceeds depth [] := by
  simp [Exceeds]

theorem exceeds_cons {depth : Nat} {c : Char} (h : ¬ (c = ')' ∧ depth = 0)) (s : List Char) :
    Exceeds depth (c :: s) ↔ Exceeds (groupsAfter depth c) s := by
  unfold Exceeds groupsAfter
  by_cases hOpen : c = '('
  · subst hOpen
    simp
    omega
  · by_cases hClose : c = ')'
    · subst hClose
      simp at h ⊢
      omega
    · simp [hOpen, hClose]

theorem unopened?_eq_some_iff {depth k : Nat} {s : List Char} :
    unopened? depth s = some k ↔
      Exceeds depth (s.take (k + 1)) ∧ ∀ j ≤ k, ¬ Exceeds depth (s.take j) := by
  induction s generalizing depth k with
  | nil => simp [unopened?, not_exceeds_nil]
  | cons c rest ih =>
    rw [unopened?]
    by_cases hFirst : c = ')' ∧ depth = 0
    · obtain ⟨rfl, rfl⟩ := hFirst
      have hExceeds : Exceeds 0 [')'] := by simp [Exceeds]
      rw [if_pos ⟨rfl, rfl⟩]
      constructor
      · rintro ⟨⟩
        refine ⟨hExceeds, fun j hj => ?_⟩
        rw [Nat.le_zero.mp hj]
        exact not_exceeds_nil 0
      · rintro ⟨_, hLeast⟩
        cases k with
        | zero => rfl
        | succ k => exact absurd hExceeds (hLeast 1 (by omega))
    · rw [if_neg hFirst, Option.map_eq_some_iff]
      constructor
      · rintro ⟨k, hRest, rfl⟩
        obtain ⟨hExceeds, hLeast⟩ := ih.mp hRest
        refine ⟨(exceeds_cons hFirst _).mpr hExceeds, fun j hj => ?_⟩
        cases j with
        | zero => exact not_exceeds_nil depth
        | succ j => exact (exceeds_cons hFirst _).not.mpr (hLeast j (by omega))
      · rintro ⟨hExceeds, hLeast⟩
        have hRest := (exceeds_cons hFirst _).mp hExceeds
        cases k with
        | zero => exact absurd hRest (not_exceeds_nil _)
        | succ k =>
          refine ⟨k, ih.mpr ⟨hRest, fun j hj => ?_⟩, rfl⟩
          exact (exceeds_cons hFirst _).not.mp (hLeast (j + 1) (by omega))

theorem exists_unopened?_iff {depth : Nat} {s : List Char} :
    (∃ k, unopened? depth s = some k) ↔ ∃ p, p <+: s ∧ Exceeds depth p := by
  constructor
  · rintro ⟨k, h⟩
    exact ⟨s.take (k + 1), List.take_prefix _ s, (unopened?_eq_some_iff.mp h).1⟩
  · rintro ⟨p, hPrefix, hExceeds⟩
    classical
    have hLength : ∃ n, Exceeds depth (s.take n) :=
      ⟨p.length, by rwa [← List.prefix_iff_eq_take.mp hPrefix]⟩
    have hFirst := Nat.find_spec hLength
    cases hFind : Nat.find hLength with
    | zero =>
      rw [hFind] at hFirst
      exact absurd hFirst (not_exceeds_nil depth)
    | succ k =>
      rw [hFind] at hFirst
      exact ⟨k, unopened?_eq_some_iff.mpr
        ⟨hFirst, fun j hj => Nat.find_min hLength (by omega)⟩⟩

/-- The place found is that of a closing parenthesis. -/
theorem getElem?_of_unopened? {depth k : Nat} {s : List Char} (h : unopened? depth s = some k) :
    s[k]? = some ')' := by
  induction s generalizing depth k with
  | nil => cases h
  | cons c rest ih =>
    rw [unopened?] at h
    split at h
    · rename_i hFirst
      cases h
      rw [hFirst.1]
      rfl
    · obtain ⟨k, hRest, rfl⟩ := Option.map_eq_some_iff.mp h
      exact ih hRest

theorem unopened?_append {xs : List Char} (hOpen : '(' ∉ xs) (hClose : ')' ∉ xs) (depth : Nat)
    (ys : List Char) : unopened? depth (xs ++ ys) = (unopened? depth ys).map (· + xs.length) := by
  induction xs with
  | nil => simp
  | cons c xs ih =>
    obtain ⟨hc, hOpen⟩ := List.ne_and_not_mem_of_not_mem_cons hOpen
    obtain ⟨hd, hClose⟩ := List.ne_and_not_mem_of_not_mem_cons hClose
    have hAfter : groupsAfter depth c = depth := by
      rw [groupsAfter, if_neg hc.symm, if_neg hd.symm]
    rw [List.cons_append, unopened?, if_neg fun hFirst => hd hFirst.1.symm, hAfter,
      ih hOpen hClose, Option.map_map]
    congr 1

namespace Token

theorem groupsAfter_of_punctuation? {depth : Nat} {word : List Char} {c : Char} {token : Token}
    (h : punctuation? depth word c = some token) :
    groupsAfter depth c = token.depthAfter depth ∧ (token = .closeGroup ↔ c = ')') := by
  obtain ⟨m, rfl, rfl, _⟩ := Mark.punctuation?_eq_some_iff.mp h
  cases m with
  | openGroup | closeGroup | comma | element => exact ⟨rfl, by decide⟩

theorem not_parenthesis_of_punctuation? {depth : Nat} {word : List Char} {c : Char}
    (h : punctuation? depth word c = none) : c ≠ '(' ∧ c ≠ ')' := by
  constructor <;>
    · rintro rfl
      cases h

theorem exists_behind_iff {place? : Option Nat} {position length : Nat} {fault : Fault} :
    (∃ k, place? = some k ∧ fault = .unexpectedCharacter (position + length + k) ')') ↔
      ∃ k, place?.map (· + length) = some k ∧ fault = .unexpectedCharacter (position + k) ')' := by
  simp only [Option.map_eq_some_iff]
  constructor
  · rintro ⟨k, hPlace, rfl⟩
    exact ⟨k + length, ⟨k, hPlace, rfl⟩, by rw [Nat.add_assoc, Nat.add_comm k]⟩
  · rintro ⟨_, ⟨k, hPlace, rfl⟩, rfl⟩
    exact ⟨k, hPlace, by rw [Nat.add_assoc, Nat.add_comm k]⟩

/-- The scanner stops only at a parenthesis that closes nothing, and always there. -/
theorem scan_eq_error_iff {position depth : Nat} {word s : List Char} {fault : Fault} :
    scan position depth word s = .error fault ↔
      ∃ k, unopened? depth s = some k ∧ fault = .unexpectedCharacter (position + k) ')' := by
  induction position, depth, word, s using scan.induct with
  | case1 position depth word => simp [scan, unopened?]
  | case2 position depth word c rest o hOperator ih =>
    obtain ⟨hOpen, hClose⟩ := o.parentheses_not_mem_letters
    have hText := Operator.letters_append_drop (Operator.prefix_of_longestAt? hOperator)
    rw [scan, hOperator]
    simp only [bind_ok_eq_error]
    rw [ih, ← hText, unopened?_append hOpen hClose, exists_behind_iff]
  | case3 position depth word c rest hOperator token hToken hFirst =>
    obtain ⟨hClose, rfl⟩ := hFirst
    obtain rfl := (groupsAfter_of_punctuation? hToken).2.mp hClose
    rw [scan, hOperator]
    simp [hToken, hClose, unopened?, eq_comm]
  | case4 position depth word c rest hOperator token hToken hFirst ih =>
    obtain ⟨hAfter, hClose⟩ := groupsAfter_of_punctuation? hToken
    rw [hClose] at hFirst
    rw [scan, hOperator]
    simp only [hToken, hClose, hFirst, if_false, bind_ok_eq_error]
    rw [ih, unopened?, if_neg hFirst, hAfter, exists_behind_iff]
  | case5 position depth word c rest hOperator hToken ih =>
    obtain ⟨hOpen, hClose⟩ := not_parenthesis_of_punctuation? hToken
    have hOpen' : '(' ∉ [c] := by simpa using hOpen.symm
    have hClose' : ')' ∉ [c] := by simpa using hClose.symm
    have hRest := unopened?_append hOpen' hClose' depth rest
    rw [List.singleton_append, List.length_singleton] at hRest
    rw [scan, hOperator]
    simp only [hToken]
    rw [ih, hRest, exists_behind_iff]

end Token

/-! ## Parentheses among the tokens -/

namespace Piece

/-- A parenthesis of the text is a token, and comes from no other piece. -/
theorem count_letter_of_fits {before : List Piece} {rest : List Char} {piece : Piece}
    (h : piece.Fits before rest) {m : Mark} (hm : m = .openGroup ∨ m = .closeGroup) :
    piece.letters.count m.letter = piece.token?.toList.count m.token := by
  cases piece with
  | op o =>
    obtain ⟨hOpen, hClose⟩ := o.parentheses_not_mem_letters
    rcases hm with rfl | rfl
    · exact List.count_eq_zero.mpr hOpen
    · exact List.count_eq_zero.mpr hClose
  | mark m' =>
    rcases hm with rfl | rfl <;> cases m' <;> decide
  | run s =>
    have hText : m.letter ∉ s := by
      intro hMember
      obtain ⟨xs, ys, hSplit⟩ := List.append_of_mem hMember
      have hUncut := h.inside xs m.letter ys hSplit
      rcases hm with rfl | rfl
      · exact hUncut.openGroup rfl
      · exact hUncut.closeGroup rfl
    have hToken : m.token ∉ (run s).token?.toList := by
      intro hMember
      rw [Option.mem_toList, token?] at hMember
      split at hMember
      · cases hMember
      · rcases hm with rfl | rfl <;> cases hMember
    rw [letters, List.count_eq_zero.mpr hText, List.count_eq_zero.mpr hToken]

theorem count_letter_of_cut {before pieces : List Piece} (h : Cut before pieces) {m : Mark}
    (hm : m = .openGroup ∨ m = .closeGroup) :
    (pieces.flatMap letters).count m.letter = (pieces.filterMap token?).count m.token := by
  induction pieces generalizing before with
  | nil => rfl
  | cons piece pieces ih =>
    obtain ⟨hFits, hCut⟩ := h
    have hTokens : (piece :: pieces).filterMap token? =
        piece.token?.toList ++ pieces.filterMap token? := by
      cases hToken : piece.token? <;> simp [hToken]
    rw [List.flatMap_cons, List.count_append, hTokens, List.count_append, ih hCut,
      count_letter_of_fits hFits hm]

end Piece

theorem count_letter_of_ofText {text : String} {tokens : List Token}
    (h : Token.ofText text = .ok tokens) {m : Mark} (hm : m = .openGroup ∨ m = .closeGroup) :
    text.toList.count m.letter = tokens.count m.token := by
  obtain ⟨pieces, hText, hCut, rfl⟩ :=
    Piece.exists_cut_of_scan Piece.opens_nil rfl (by simp) h
  rw [← Piece.count_letter_of_cut hCut hm, hText]
  rfl

theorem Token.depthAfter_add {depth : Nat} {token : Token} {rest : List Token}
    (h : token.Stands depth rest) : token.depthAfter depth + [token].count .closeGroup =
      depth + [token].count .openGroup := by
  cases token with
  | closeGroup => exact Nat.succ_pred_eq_of_pos h
  | _ => rfl

/-! ## Groups that the parser holds -/

namespace Postorder

def State.groups (st : State) : Nat := st.stack.count .group

@[simp]
theorem count_group_map (os : List Operator) : (os.map Waiting.op).count .group = 0 :=
  List.count_eq_zero.mpr (by simp)

theorem count_group_of_flushGroup? {stack : List Waiting} (h : flushGroup? stack = none) :
    stack.count .group = 0 := by
  induction stack with
  | nil => rfl
  | cons waiting stack ih =>
    cases waiting with
    | group => cases h
    | op o => simpa using ih (Option.map_eq_none_iff.mp h)

theorem flushAll?_eq_none_iff {stack : List Waiting} :
    flushAll? stack = none ↔ 0 < stack.count .group := by
  induction stack with
  | nil => simp [flushAll?]
  | cons waiting stack ih =>
    cases waiting with
    | group => simp [flushAll?]
    | op o => simpa [flushAll?] using ih

/-- The stack holds as many groups as the scanner counts. -/
theorem Step.groups_eq {st st' : State} {next : Option Token} {token : Token}
    (h : Step st next token st') : st'.groups = token.depthAfter st.groups := by
  cases h with
  | closeGroup os below hStack | comma os below hStack =>
    simp [State.groups, hStack, Token.depthAfter]
  | behind o os below hExpecting hFixity hFlush =>
    have hStack := flushTighter_append o st.stack
    rw [hFlush] at hStack
    simp [State.groups, hStack, Token.depthAfter]
  | _ => simp [State.groups, Token.depthAfter]

theorem groups_run {st final : State} {tokens : List Token}
    (hLegible : Token.Legible st.groups tokens) (h : run st tokens = .ok final) :
    final.groups + tokens.count .closeGroup = st.groups + tokens.count .openGroup := by
  induction tokens generalizing st with
  | nil => cases h; rfl
  | cons token rest ih =>
    obtain ⟨st', hStep, hRun⟩ := run_cons_ok h
    obtain ⟨hStands, hRest⟩ := hLegible
    rw [← hStep.groups_eq] at hRest
    have hGroups := ih hRest hRun
    have hToken := Token.depthAfter_add hStands
    rw [← hStep.groups_eq] at hToken
    rw [← List.singleton_append, List.count_append, List.count_append]
    omega

/-- Where the scanner lets a token stand, the parser finds only misplaced operators. -/
theorem step_error_of_stands {st : State} {next : Option Token} {token : Token}
    {rest : List Token} {fault : Fault} (hStands : token.Stands st.groups rest)
    (h : step st next token = .error fault) :
    ∃ problem o, fault = .malformed st.index problem ∧ problem.operator? = some o := by
  cases token with
  | closeGroup | comma =>
    cases hFlush : flushGroup? st.stack with
    | none => exact absurd (count_group_of_flushGroup? hFlush) (Nat.ne_of_gt hStands)
    | some flushed => simp [step, hFlush] at h
  | op o =>
    rw [step] at h
    split at h
    · exact ⟨_, o, (stepBefore_error h).2, rfl⟩
    · exact ⟨_, o, stepBehind_error h, rfl⟩
  | _ => cases h

theorem run_error_of_legible {st : State} {tokens : List Token} {fault : Fault}
    (hLegible : Token.Legible st.groups tokens) (h : run st tokens = .error fault) :
    ∃ index problem o, fault = .malformed index problem ∧ problem.operator? = some o := by
  induction tokens generalizing st with
  | nil => cases h
  | cons token rest ih =>
    obtain ⟨hStands, hRest⟩ := hLegible
    cases hStep : step st rest.head? token with
    | error fault' =>
      rw [run, hStep] at h
      cases h
      exact ⟨st.index, step_error_of_stands hStands hStep⟩
    | ok st' =>
      rw [run_of_step hStep] at h
      rw [← (step_ok hStep).groups_eq] at hRest
      exact ih hRest h

theorem finish_of_groups (final : State) :
    (final.groups = 0 → ∃ items, finish final = .ok items) ∧
      (0 < final.groups → finish final = .error (.malformed final.index .unclosedGroup)) := by
  unfold finish
  cases hFlush : flushAll? final.stack with
  | none =>
    have hGroups : 0 < final.groups := flushAll?_eq_none_iff.mp hFlush
    exact ⟨fun hZero => absurd hZero (Nat.ne_of_gt hGroups), fun _ => rfl⟩
  | some os =>
    refine ⟨fun _ => ⟨_, rfl⟩, fun hGroups => ?_⟩
    rw [flushAll?_eq_none_iff.mpr hGroups] at hFlush
    cases hFlush

end Postorder

/-- Of the tokens of a text an operator is misplaced, or all groups are closed, or some are left. -/
theorem postorder_of_legible {tokens : List Token} (h : Token.Legible 0 tokens) :
    (∃ index problem o, postorder tokens = .error (.malformed index problem) ∧
        problem.operator? = some o) ∨
      (∃ items, postorder tokens = .ok items) ∧
        tokens.count .closeGroup = tokens.count .openGroup ∨
      postorder tokens = .error (.malformed tokens.length .unclosedGroup) ∧
        tokens.count .closeGroup < tokens.count .openGroup := by
  have hStart : Token.Legible Postorder.State.start.groups tokens := h
  cases hRun : Postorder.run .start tokens with
  | error fault =>
    obtain ⟨index, problem, o, rfl, hOperator⟩ := Postorder.run_error_of_legible hStart hRun
    exact .inl ⟨index, problem, o, by rw [postorder, hRun]; rfl, hOperator⟩
  | ok final =>
    have hPostorder : postorder tokens = Postorder.finish final := by rw [postorder, hRun]; rfl
    have hGroups := Postorder.groups_run hStart hRun
    have hIndex : final.index = tokens.length := by
      simpa [Postorder.State.start] using Postorder.run_index hRun
    rw [show Postorder.State.start.groups = 0 from rfl] at hGroups
    obtain ⟨hClosed, hLeft⟩ := Postorder.finish_of_groups final
    rw [hPostorder, ← hIndex]
    rcases Nat.eq_zero_or_pos final.groups with hZero | hPos
    · exact .inr (.inl ⟨hClosed hZero, by omega⟩)
    · exact .inr (.inr ⟨hLeft hPos, by omega⟩)

/--
A text is refused just if a beginning of it closes more groups than it opens, and the fault is that
of the first parenthesis too many. Behind the scanner the parser finds no such parenthesis and no
comma outside of a group; it finds that a group is not closed only if the text opens more than it
closes, and then does not succeed.
-/
theorem unbalanced_iff (text : String) :
    ((∃ fault, Token.ofText text = .error fault) ↔
        ∃ p, p <+: text.toList ∧ p.count '(' < p.count ')') ∧
      (∀ fault, Token.ofText text = .error fault → ∃ k, fault = .unexpectedCharacter k ')' ∧
        text.toList[k]? = some ')' ∧
        (text.toList.take (k + 1)).count '(' < (text.toList.take (k + 1)).count ')' ∧
        ∀ j ≤ k, (text.toList.take j).count ')' ≤ (text.toList.take j).count '(') ∧
      ∀ tokens, Token.ofText text = .ok tokens →
        (∀ index, postorder tokens ≠ .error (.malformed index .unopenedGroup)) ∧
        (∀ index, postorder tokens ≠ .error (.malformed index .commaOutsideGroup)) ∧
        (∀ index, postorder tokens = .error (.malformed index .unclosedGroup) →
          text.toList.count ')' < text.toList.count '(') ∧
        (text.toList.count ')' < text.toList.count '(' →
          ∀ items, postorder tokens ≠ .ok items) := by
  have hError (fault : Fault) : Token.ofText text = .error fault ↔
      ∃ k, unopened? 0 text.toList = some k ∧ fault = .unexpectedCharacter k ')' := by
    rw [Token.ofText, Token.scan_eq_error_iff]
    simp only [Nat.zero_add]
  refine ⟨?_, fun fault hFault => ?_, fun tokens hTokens => ?_⟩
  · have hExceeds : (∃ k, unopened? 0 text.toList = some k) ↔ _ := exists_unopened?_iff
    simp only [Exceeds, Nat.zero_add] at hExceeds
    rw [← hExceeds]
    constructor
    · rintro ⟨fault, hFault⟩
      obtain ⟨k, hPlace, _⟩ := (hError fault).mp hFault
      exact ⟨k, hPlace⟩
    · rintro ⟨k, hPlace⟩
      exact ⟨_, (hError _).mpr ⟨k, hPlace, rfl⟩⟩
  · obtain ⟨k, hPlace, rfl⟩ := (hError fault).mp hFault
    obtain ⟨hExceeds, hLeast⟩ := unopened?_eq_some_iff.mp hPlace
    simp only [Exceeds, Nat.zero_add, Nat.not_lt] at hExceeds hLeast
    exact ⟨k, rfl, getElem?_of_unopened? hPlace, hExceeds, hLeast⟩
  · have hOpen := count_letter_of_ofText hTokens (m := .openGroup) (.inl rfl)
    have hClose := count_letter_of_ofText hTokens (m := .closeGroup) (.inr rfl)
    simp only [Mark.letter, Mark.token] at hOpen hClose
    rw [hOpen, hClose]
    rcases postorder_of_legible (Token.legible_of_ofText hTokens) with
      ⟨index, problem, o, hFault, hOperator⟩ | ⟨⟨items, hItems⟩, hCount⟩ | ⟨hFault, hCount⟩
    · have hOther (k : Nat) {other : Problem} (hNone : other.operator? = none) :
          postorder tokens ≠ .error (.malformed k other) := by
        rw [hFault]
        rintro ⟨⟩
        rw [hNone] at hOperator
        cases hOperator
      refine ⟨fun k => hOther k rfl, fun k => hOther k rfl, fun k h => absurd h (hOther k rfl),
        fun _ items hItems => ?_⟩
      rw [hFault] at hItems
      cases hItems
    · simp [hItems, hCount]
    · simp [hFault, hCount]

/-- One text has a parenthesis too many at its end, and one leaves the first group open. -/
theorem unbalanced_iff_group :
    let closing := "(a)#)"
    let opening := "((.,@)+b"
    let tokens := [.openGroup, .openGroup, .op .field, .comma, .element, .closeGroup, .op .add,
      .word "b"]
    Token.ofText closing = .error (.unexpectedCharacter 4 ')') ∧
      (∃ p, p <+: closing.toList ∧ p.count '(' < p.count ')') ∧
      (∃ k, Fault.unexpectedCharacter 4 ')' = .unexpectedCharacter k ')' ∧
        closing.toList[k]? = some ')') ∧
      Token.ofText opening = .ok tokens ∧
      postorder tokens = .error (.malformed 8 .unclosedGroup) ∧
      opening.toList.count ')' < opening.toList.count '(' ∧
      (∀ items, postorder tokens ≠ .ok items) := by
  intro closing opening tokens
  have hFault : Token.ofText "(a)#)" = .error (.unexpectedCharacter 4 ')') := by cbv
  have hTokens : Token.ofText "((.,@)+b" = .ok tokens := by cbv
  have hPostorder : postorder tokens = .error (.malformed 8 .unclosedGroup) := rfl
  obtain ⟨hIff, hFirst, _⟩ := unbalanced_iff closing
  obtain ⟨_, _, hRead⟩ := unbalanced_iff opening
  obtain ⟨k, hPlace, hLetter, _⟩ := hFirst _ hFault
  obtain ⟨_, _, hUnclosed, hNever⟩ := hRead tokens hTokens
  exact ⟨hFault, hIff.mp ⟨_, hFault⟩, ⟨k, hPlace, hLetter⟩, hTokens, hPostorder,
    hUnclosed 8 hPostorder, hNever (hUnclosed 8 hPostorder)⟩

end Expression

end Reshape
