import Mathlib.Data.List.Chain
import Reshape.Proofs.Expression.Postorder
import Reshape.Proofs.Text.Trim

/-!
# The pieces of a text

A text that can be read splits into operators, punctuation and the runs between them. Where an
operator stands it is the longest one, and a run goes on to the next cut. The tokens are those of
the pieces, in order: no character is lost and none is used twice.
-/

namespace Reshape

namespace Expression

/-- The characters that cut a text and are no operators. -/
inductive Mark where
  | openGroup
  | closeGroup
  | comma
  | element
  deriving DecidableEq

namespace Mark

def letter : Mark → Char
  | openGroup => '('
  | closeGroup => ')'
  | comma => ','
  | element => '@'

def token : Mark → Token
  | openGroup => .openGroup
  | closeGroup => .closeGroup
  | comma => .comma
  | element => .element

@[simp]
theorem longestAt?_letter (m : Mark) (rest : List Char) :
    Operator.longestAt? (m.letter :: rest) = none := by
  have hTable : ∀ o ∈ Operator.all, o.letters.head? ≠ some m.letter := by cases m <;> decide
  refine Operator.longestAt?_eq_none.mpr fun o hPrefix => hTable o (Operator.mem_all o) ?_
  obtain ⟨first, others, hLetters⟩ := List.exists_cons_of_ne_nil o.letters_ne_nil
  rw [hLetters] at hPrefix ⊢
  exact congrArg some (List.cons_prefix_cons.mp hPrefix).1

/-- What is asked of the open groups and of the word before it for a mark to cut. -/
def Cuts (depth : Nat) (word : List Char) : Mark → Prop
  | openGroup => True
  | closeGroup => True
  | comma => 0 < depth
  | element => Text.trim word = []

theorem punctuation?_eq_some_iff {depth : Nat} {word : List Char} {c : Char} {token : Token} :
    Token.punctuation? depth word c = some token ↔
      ∃ m : Mark, c = m.letter ∧ token = m.token ∧ m.Cuts depth word := by
  constructor
  · intro h
    unfold Token.punctuation? at h
    split at h
    · cases h
      exact ⟨openGroup, by assumption, rfl, trivial⟩
    split at h
    · cases h
      exact ⟨closeGroup, by assumption, rfl, trivial⟩
    split at h
    · rename_i hc
      cases h
      exact ⟨comma, hc.1, rfl, hc.2⟩
    split at h
    · rename_i hc
      cases h
      exact ⟨element, hc.1, rfl, hc.2⟩
    · cases h
  · rintro ⟨m, rfl, rfl, hCuts⟩
    cases m with
    | openGroup | closeGroup => rfl
    | comma | element =>
      rw [Cuts] at hCuts
      simp [Token.punctuation?, letter, token, hCuts]

end Mark

inductive Piece where
  | op (o : Operator)
  | mark (m : Mark)
  | run (s : List Char)
  deriving DecidableEq

namespace Piece

def letters : Piece → List Char
  | op o => o.letters
  | mark m => [m.letter]
  | run s => s

def token? : Piece → Option Token
  | op o => some (.op o)
  | mark m => some m.token
  | run s => if Text.trim s = [] then none else some (.word (String.ofList (Text.trim s)))

def InGroup (before : List Piece) : Prop :=
  before.count (mark .closeGroup) < before.count (mark .openGroup)

/-- The run that the pieces end in; it is the text since the last cut. -/
def pending (before : List Piece) : List Char :=
  match before.getLast? with
  | some (run s) => s
  | _ => []

/-- Behind the pieces and the text `word` since them, nothing cuts `c :: rest` in front of `c`. -/
structure Uncut (before : List Piece) (word : List Char) (c : Char) (rest : List Char) : Prop where
  operator : ∀ o : Operator, ¬ o.letters <+: c :: rest
  openGroup : c ≠ '('
  closeGroup : c ≠ ')'
  comma : c = ',' → ¬ InGroup before
  element : c = '@' → Text.trim word ≠ []

/-- A comma cuts inside a group, and `@` where no word has begun. -/
def MarkFits (before : List Piece) : Mark → Prop
  | .openGroup => True
  | .closeGroup => InGroup before
  | .comma => InGroup before
  | .element => Text.trim (pending before) = []

/-- A run from one cut to the next, which the text `rest` begins with unless it is the end. -/
structure Between (before : List Piece) (s rest : List Char) : Prop where
  nonempty : s ≠ []
  start : pending before = []
  inside : ∀ xs c ys, s = xs ++ c :: ys → Uncut before xs c (ys ++ rest)
  stop : ∀ c ys, rest = c :: ys → ¬ Uncut before s c ys

def Fits (before : List Piece) (rest : List Char) : Piece → Prop
  | op o => ∀ other : Operator, other.letters <+: o.letters ++ rest →
      other.letters.length ≤ o.letters.length
  | mark m => MarkFits before m
  | run s => Between before s rest

/-- Each piece fits behind those before it and in front of the text after it. -/
def Cut (before : List Piece) : List Piece → Prop
  | [] => True
  | piece :: after => piece.Fits before (after.flatMap letters) ∧ Cut (before ++ [piece]) after

@[simp]
theorem pending_concat (before : List Piece) (piece : Piece) :
    pending (before ++ [piece]) = pending [piece] := by
  simp [pending]

/-- As many groups are open behind the pieces as the scanner counts. -/
def Opens (before : List Piece) (depth : Nat) : Prop :=
  before.count (mark .openGroup) = before.count (mark .closeGroup) + depth

theorem opens_nil : Opens [] 0 := rfl

theorem Opens.inGroup_iff {before : List Piece} {depth : Nat} (h : Opens before depth) :
    InGroup before ↔ 0 < depth := by
  unfold Opens at h
  unfold InGroup
  omega

theorem opens_concat {before : List Piece} {piece : Piece} {depth : Nat} (h : Opens before depth)
    (hMark : ∀ m, piece ≠ mark m) : Opens (before ++ [piece]) depth := by
  simpa [Opens, List.count_append, List.count_singleton, hMark] using h

theorem opens_mark {before : List Piece} {depth : Nat} {m : Mark} (h : Opens before depth)
    (hFits : MarkFits before m) : Opens (before ++ [mark m]) (m.token.depthAfter depth) := by
  have hGroup := h.inGroup_iff
  cases m <;> simp only [MarkFits, hGroup] at hFits <;>
    simp [Opens, List.count_append, Mark.token, Token.depthAfter] at h ⊢ <;>
    omega

theorem markFits_iff {before : List Piece} {depth : Nat} {m : Mark} (h : Opens before depth) :
    MarkFits before m ↔
      m.Cuts depth (pending before) ∧ ¬ (m.token = .closeGroup ∧ depth = 0) := by
  have hGroup := h.inGroup_iff
  cases m <;> simp [MarkFits, Mark.Cuts, Mark.token, hGroup, Nat.pos_iff_ne_zero]

theorem punctuation?_eq_some {before : List Piece} {depth : Nat} {c : Char} {token : Token}
    (h : Opens before depth) :
    (Token.punctuation? depth (pending before) c = some token ∧
        ¬ (token = .closeGroup ∧ depth = 0)) ↔
      ∃ m : Mark, c = m.letter ∧ token = m.token ∧ MarkFits before m := by
  rw [Mark.punctuation?_eq_some_iff]
  constructor
  · rintro ⟨⟨m, rfl, rfl, hCuts⟩, hClose⟩
    exact ⟨m, rfl, rfl, (markFits_iff h).mpr ⟨hCuts, hClose⟩⟩
  · rintro ⟨m, rfl, rfl, hFits⟩
    obtain ⟨hCuts, hClose⟩ := (markFits_iff h).mp hFits
    exact ⟨⟨m, rfl, rfl, hCuts⟩, hClose⟩

theorem uncut_iff {before : List Piece} {word rest : List Char} {c : Char} {depth : Nat}
    (h : Opens before depth) : Uncut before word c rest ↔
      Operator.longestAt? (c :: rest) = none ∧ Token.punctuation? depth word c = none := by
  have hGroup := h.inGroup_iff
  rw [Operator.longestAt?_eq_none]
  constructor
  · rintro ⟨hOperator, hOpen, hClose, hComma, hElement⟩
    rw [hGroup] at hComma
    exact ⟨hOperator, by grind [Token.punctuation?]⟩
  · rintro ⟨hOperator, hPunctuation⟩
    refine ⟨hOperator, ?_, ?_, ?_, ?_⟩ <;> grind [Token.punctuation?]

def ofWord (word : List Char) : List Piece := if word = [] then [] else [run word]

@[simp]
theorem flatMap_ofWord (word : List Char) : (ofWord word).flatMap letters = word := by
  unfold ofWord
  split
  · rename_i h
    exact h.symm
  · simp [letters]

@[simp]
theorem filterMap_ofWord (word : List Char) :
    (ofWord word).filterMap token? = Token.ofWord word := by
  unfold ofWord
  split
  · rename_i h
    subst h
    rfl
  · cases hTrim : Text.trim word <;> simp [Token.ofWord, token?, hTrim]

theorem pending_ofWord {before : List Piece} (h : pending before = []) (word : List Char) :
    pending (before ++ ofWord word) = word := by
  unfold ofWord
  split
  · rename_i hWord
    rw [hWord, List.append_nil, h]
  · simp [pending]

theorem opens_ofWord {before : List Piece} {depth : Nat} (h : Opens before depth)
    (word : List Char) : Opens (before ++ ofWord word) depth := by
  unfold ofWord
  split
  · rwa [List.append_nil]
  · exact opens_concat h (by simp)

theorem cut_ofWord {before after : List Piece} {word : List Char} (hPending : pending before = [])
    (hWord : ∀ xs c ys, word = xs ++ c :: ys →
      Uncut before xs c (ys ++ after.flatMap letters))
    (hStop : ∀ c ys, after.flatMap letters = c :: ys → ¬ Uncut before word c ys)
    (h : Cut (before ++ ofWord word) after) : Cut before (ofWord word ++ after) := by
  unfold ofWord at h ⊢
  split
  · rename_i hEmpty
    simpa [hEmpty] using h
  · rename_i hNonempty
    rw [if_neg hNonempty] at h
    exact ⟨⟨hNonempty, hPending, hWord, hStop⟩, h⟩

theorem exists_cut_cons {before pieces : List Piece} {piece : Piece} {word s : List Char}
    {token : Token} (hToken : piece.token? = some token) (hPending : pending before = [])
    (hText : (piece :: pieces).flatMap letters = s)
    (hWord : ∀ xs c ys, word = xs ++ c :: ys → Uncut before xs c (ys ++ s))
    (hStop : ∀ c ys, s = c :: ys → ¬ Uncut before word c ys)
    (h : Cut (before ++ ofWord word) (piece :: pieces)) :
    ∃ pieces', pieces'.flatMap letters = word ++ s ∧ Cut before pieces' ∧
      pieces'.filterMap token? = Token.ofWord word ++ token :: pieces.filterMap token? := by
  subst hText
  refine ⟨ofWord word ++ piece :: pieces, ?_, cut_ofWord hPending hWord hStop h, ?_⟩
  · simp
  · simp [hToken]

theorem exists_cut_of_scan {position depth : Nat} {word s : List Char} {before : List Piece}
    {tokens : List Token} (hDepth : Opens before depth) (hPending : pending before = [])
    (hWord : ∀ xs c ys, word = xs ++ c :: ys → Uncut before xs c (ys ++ s))
    (h : Token.scan position depth word s = .ok tokens) :
    ∃ pieces, pieces.flatMap letters = word ++ s ∧ Cut before pieces ∧
      pieces.filterMap token? = tokens := by
  -- `word` is the run that no cut has ended yet, and `hWord` says that none lies inside of it.
  induction position, depth, word, s using Token.scan.induct generalizing before tokens with
  | case1 position depth word =>
    rw [Token.scan] at h
    cases h
    refine ⟨ofWord word, ?_, ?_, filterMap_ofWord word⟩
    · simp
    · have hCut : Cut before (ofWord word ++ []) := cut_ofWord hPending hWord (by simp) trivial
      rwa [List.append_nil] at hCut
  | case2 position depth word c rest o hOperator ih =>
    rw [Token.scan, hOperator] at h
    obtain ⟨tokens', hRest, hTokens⟩ := bind_eq_ok.mp h
    cases hTokens
    have hText := Operator.letters_append_drop (Operator.prefix_of_longestAt? hOperator)
    obtain ⟨pieces, hPieces, hCut, rfl⟩ := ih (opens_concat (opens_ofWord hDepth word) (by simp))
      (pending_concat _ (.op o)) (by simp) hRest
    rw [List.nil_append] at hPieces
    rw [← hPieces] at hText
    have hHead : (op o).token? = some (.op o) := rfl
    refine exists_cut_cons hHead hPending hText hWord ?_ ⟨fun other hOther => ?_, hCut⟩
    · rintro _ _ ⟨⟩ hUncut
      cases hOperator.symm.trans ((uncut_iff hDepth).mp hUncut).1
    · exact Operator.length_le_of_longestAt? hOperator (hText ▸ hOther)
  | case3 position depth word c rest hOperator token hToken hClose =>
    obtain ⟨rfl, rfl⟩ := hClose
    rw [Token.scan, hOperator] at h
    simp [hToken] at h
  | case4 position depth word c rest hOperator token hToken hClose ih =>
    rw [Token.scan, hOperator] at h
    simp only [hToken, hClose, if_false] at h
    obtain ⟨tokens', hRest, hTokens⟩ := bind_eq_ok.mp h
    cases hTokens
    have hOpens := opens_ofWord hDepth word
    obtain ⟨m, rfl, rfl, hFits⟩ := (punctuation?_eq_some hOpens).mp
      ⟨by rwa [pending_ofWord hPending], hClose⟩
    obtain ⟨pieces, rfl, hCut, rfl⟩ := ih (opens_mark hOpens hFits)
      (pending_concat _ (.mark m)) (by simp) hRest
    have hHead : (mark m).token? = some m.token := rfl
    refine exists_cut_cons hHead hPending rfl hWord ?_ ⟨hFits, hCut⟩
    rintro _ _ ⟨⟩ hUncut
    cases hToken.symm.trans ((uncut_iff hDepth).mp hUncut).2
  | case5 position depth word c rest hOperator hToken ih =>
    rw [Token.scan, hOperator] at h
    simp only [hToken] at h
    -- A split of the longer run is one of the old run, or is right in front of `c`.
    have hUncut := (uncut_iff hDepth).mpr ⟨hOperator, hToken⟩
    obtain ⟨pieces, hPieces, hCut⟩ := ih hDepth hPending (by
      intro xs d ys hSplit
      rcases List.eq_nil_or_concat' ys with rfl | ⟨ys', last, rfl⟩
      · obtain ⟨rfl, hLast⟩ := List.append_inj' hSplit rfl
        cases hLast
        exact hUncut
      · rw [← List.cons_append, ← List.append_assoc] at hSplit
        obtain ⟨hInit, hLast⟩ := List.append_inj' hSplit rfl
        cases hLast
        simpa using hWord xs d ys' hInit) h
    exact ⟨pieces, by rw [hPieces]; simp, hCut⟩

theorem scan_uncut {depth : Nat} (xs : List Char) {ys rest : List Char}
    (h : ∀ us c vs, ys = us ++ c :: vs → Operator.longestAt? (c :: (vs ++ rest)) = none ∧
      Token.punctuation? depth (xs ++ us) c = none) (position : Nat) :
    Token.scan position depth xs (ys ++ rest) =
      Token.scan (position + ys.length) depth (xs ++ ys) rest := by
  induction ys generalizing position xs with
  | nil => rw [List.append_nil, List.nil_append, List.length_nil, Nat.add_zero]
  | cons c ys ih =>
    obtain ⟨hOperator, hPunctuation⟩ := h [] c ys rfl
    rw [List.append_nil] at hPunctuation
    have hRest := ih (xs ++ [c])
      (fun us d vs hSplit => by simpa using h (c :: us) d vs (by rw [hSplit, List.cons_append]))
      (position + 1)
    rw [List.cons_append, Token.scan, hOperator]
    simp only [hPunctuation]
    rw [hRest, List.length_cons, List.append_assoc, List.singleton_append, Nat.add_assoc,
      Nat.add_comm 1]

theorem scan_operator {depth : Nat} {word rest : List Char} {o : Operator}
    (h : Operator.longestAt? (o.letters ++ rest) = some o) (position : Nat) :
    Token.scan position depth word (o.letters ++ rest) = (do
      let tokens ← Token.scan (position + o.letters.length) depth [] rest
      .ok (Token.ofWord word ++ .op o :: tokens)) := by
  obtain ⟨first, others, hLetters⟩ := List.exists_cons_of_ne_nil o.letters_ne_nil
  have hDrop : (others ++ rest).drop (o.letters.length - 1) = rest := by simp [hLetters]
  have hText : o.letters ++ rest = first :: (others ++ rest) := by rw [hLetters, List.cons_append]
  rw [hText] at h ⊢
  rw [Token.scan, h]
  simp only [hDrop]

theorem scan_mark {depth : Nat} {word : List Char} {m : Mark}
    (hToken : Token.punctuation? depth word m.letter = some m.token)
    (hClose : ¬ (m.token = .closeGroup ∧ depth = 0)) (rest : List Char) (position : Nat) :
    Token.scan position depth word (m.letter :: rest) = (do
      let tokens ← Token.scan (position + 1) (m.token.depthAfter depth) [] rest
      .ok (Token.ofWord word ++ m.token :: tokens)) := by
  simp only [Token.scan, Mark.longestAt?_letter, hToken, hClose, if_false]

theorem scan_of_cut {before pieces : List Piece} {depth : Nat} (hDepth : Opens before depth)
    (h : Cut before pieces) (position : Nat) :
    Token.scan position depth (pending before) (pieces.flatMap letters) =
      .ok (Token.ofWord (pending before) ++ pieces.filterMap token?) := by
  -- A run is still pending when the scanner comes to the cut behind it, which puts out its word.
  induction pieces generalizing before depth position with
  | nil => simp [Token.scan]
  | cons piece pieces ih =>
    obtain ⟨hFits, hCut⟩ := h
    rw [List.flatMap_cons]
    cases piece with
    | op o =>
      have hNext := ih (opens_concat hDepth (by simp)) hCut (position + o.letters.length)
      have hOperator := Operator.longestAt?_eq_some (List.prefix_append _ _) hFits
      rw [pending_concat] at hNext
      change Token.scan _ depth [] _ = .ok (pieces.filterMap token?) at hNext
      rw [letters, scan_operator hOperator, hNext]
      rfl
    | mark m =>
      have hNext := ih (opens_mark hDepth hFits) hCut (position + 1)
      obtain ⟨hToken, hClose⟩ := (punctuation?_eq_some hDepth).mpr ⟨m, rfl, rfl, hFits⟩
      rw [pending_concat] at hNext
      change Token.scan _ _ [] _ = .ok (pieces.filterMap token?) at hNext
      rw [letters, List.singleton_append, scan_mark hToken hClose, hNext]
      rfl
    | run s =>
      obtain ⟨hNonempty, hPending, hUncut, _⟩ := hFits
      have hNext := ih (opens_concat hDepth (by simp)) hCut (position + s.length)
      have hWord := filterMap_ofWord s
      rw [pending_concat] at hNext
      rw [ofWord, if_neg hNonempty] at hWord
      have hScan := scan_uncut []
        (fun us c vs hSplit => (uncut_iff hDepth).mp (hUncut us c vs hSplit)) position
      rw [hPending, letters, hScan, ← List.singleton_append, List.filterMap_append, hWord]
      exact hNext

theorem ofText_of_cut {text : String} {pieces : List Piece}
    (hText : pieces.flatMap letters = text.toList) (h : Cut [] pieces) :
    Token.ofText text = .ok (pieces.filterMap token?) := by
  have hScan := scan_of_cut opens_nil h 0
  rw [hText] at hScan
  exact hScan

theorem eq_run_of_token? {piece : Piece} {word : String} (h : piece.token? = some (.word word)) :
    ∃ s, piece = run s ∧ Text.trim s ≠ [] ∧ word.toList = Text.trim s := by
  cases piece with
  | op o => cases h
  | mark m => cases m <;> cases h
  | run s =>
    rw [token?] at h
    split at h
    · cases h
    · rename_i hNonempty
      cases h
      exact ⟨s, rfl, hNonempty, String.toList_ofList⟩

theorem head?_filterMap_of_cut {before pieces : List Piece} (h : Cut before pieces)
    (hPending : Text.trim (pending before) ≠ []) {token : Token}
    (hToken : (pieces.filterMap token?).head? = some token) :
    token ≠ .element ∧ ∀ word, token ≠ .word word := by
  cases pieces with
  | nil => cases hToken
  | cons piece pieces =>
    cases piece with
    | op o => cases hToken; simp
    | mark m =>
      cases hToken
      cases m with
      | element => exact absurd h.1 hPending
      | _ => simp [Mark.token]
    | run s =>
      rw [h.1.start] at hPending
      exact absurd rfl hPending

theorem isChain_of_cut {before pieces : List Piece} (h : Cut before pieces) :
    (pieces.filterMap token?).IsChain fun token next =>
      ∀ word, token = .word word → next ≠ .element ∧ ∀ other, next ≠ .word other := by
  induction pieces generalizing before with
  | nil => exact .nil
  | cons piece pieces ih =>
    obtain ⟨_, hCut⟩ := h
    have hRest := ih hCut
    cases hToken : piece.token? with
    | none => rwa [List.filterMap_cons, hToken]
    | some token =>
      rw [List.filterMap_cons, hToken]
      refine List.isChain_cons.mpr ⟨fun next hNext word hWord => ?_, hRest⟩
      obtain ⟨s, rfl, hNonempty, _⟩ := eq_run_of_token? (hWord ▸ hToken)
      exact head?_filterMap_of_cut hCut (by simpa [pending] using hNonempty) hNext

end Piece

/--
A text is read exactly if it can be cut into pieces that fit, and then the tokens are those of the
pieces.
-/
theorem ofText_ok_iff_cut (text : String) (tokens : List Token) :
    Token.ofText text = .ok tokens ↔ ∃ pieces : List Piece,
      pieces.flatMap Piece.letters = text.toList ∧ Piece.Cut [] pieces ∧
      pieces.filterMap Piece.token? = tokens ∧
      (∀ word, .word word ∈ tokens → word ≠ "" ∧ Text.Trimmed word.toList) ∧
      tokens.IsChain fun token next =>
        ∀ word, token = .word word → next ≠ .element ∧ ∀ other, next ≠ .word other := by
  constructor
  · intro h
    obtain ⟨pieces, hText, hCut, rfl⟩ :=
      Piece.exists_cut_of_scan Piece.opens_nil rfl (by simp) h
    refine ⟨pieces, hText, hCut, rfl, fun word hWord => ?_, Piece.isChain_of_cut hCut⟩
    obtain ⟨piece, _, hToken⟩ := List.mem_filterMap.mp hWord
    obtain ⟨s, _, hNonempty, hLetters⟩ := Piece.eq_run_of_token? hToken
    refine ⟨fun hEmpty => hNonempty ?_, hLetters ▸ Text.trimmed_trim s⟩
    rw [← hLetters, hEmpty]
    rfl
  · rintro ⟨pieces, hText, hCut, rfl, _⟩
    exact Piece.ofText_of_cut hText hCut

-- Outside of a group a comma belongs to the word, and so does `@` behind its first letter.
example : Token.ofText "a@,b !sortBy ( @,c)" =
    .ok [.word "a@,b", .op .sortBy, .openGroup, .element, .comma, .word "c", .closeGroup] := by
  cbv

end Expression

end Reshape
