import Reshape.Proofs.Expression.Pieces

/-!
# Token lists of texts

The tokens of a text are told by their neighbours and by the groups that are open: nothing inside a
word cuts it, no word or element stands right behind one, and a group is closed or divided only
where one is open. Such tokens, written out with blanks between them, are read as they are.
-/

namespace Reshape

namespace Operator

theorem isBlank_of_mem_letters {o : Operator} {c : Char} (h : c ∈ o.letters) :
    Text.isBlank c = false := by
  have hLetters : o.letters.all (fun c => !Text.isBlank c) = true := by cases o <;> decide
  simpa using List.all_eq_true.mp hLetters c h

/-- An operator that begins in a text does not reach past a blank behind it. -/
theorem prefix_of_blank {o : Operator} {s rest : List Char} (h : o.letters <+: s ++ rest)
    (hRest : ∀ c ∈ rest.head?, Text.isBlank c = true) : o.letters <+: s := by
  rcases List.prefix_or_prefix_of_prefix h (List.prefix_append s rest) with hShort | ⟨tail, hLong⟩
  · exact hShort
  · rw [← hLong, List.prefix_append_right_inj] at h
    cases tail with
    | nil => exact ⟨[], by simpa using hLong.symm⟩
    | cons c tail =>
      obtain ⟨behind, rfl⟩ := h
      have hLetter := isBlank_of_mem_letters (o := o) (c := c) (by simp [← hLong])
      rw [hRest c rfl] at hLetter
      cases hLetter

theorem longestAt?_letters {o : Operator} {rest : List Char}
    (hRest : ∀ c ∈ rest.head?, Text.isBlank c = true) :
    longestAt? (o.letters ++ rest) = some o :=
  longestAt?_eq_some (List.prefix_append _ _) fun _ hOther =>
    (prefix_of_blank hOther hRest).length_le

end Operator

namespace Expression

/-- What a word is made of where `depth` groups are open. -/
structure IsWord (depth : Nat) (s : List Char) : Prop where
  nonempty : s ≠ []
  trimmed : Text.Trimmed s
  operator : ∀ o : Operator, ¬ o.letters <:+: s
  openGroup : '(' ∉ s
  closeGroup : ')' ∉ s
  comma : ',' ∈ s → depth = 0
  element : s.head? ≠ some '@'

namespace Token

def source : Token → String
  | op o => o.spelling
  | word text => text
  | element => "@"
  | openGroup => "("
  | closeGroup => ")"
  | comma => ","

/-- The tokens written out, with a blank between any two. -/
def spaced (tokens : List Token) : String := " ".intercalate (tokens.map source)

/-- Behind a word, what is written for such a token would belong to the word. -/
def joinsWord : Token → Bool
  | word _ => true
  | element => true
  | _ => false

/-- A token fits in front of `rest` where `depth` groups are open. -/
def Stands (depth : Nat) (rest : List Token) : Token → Prop
  | word text => IsWord depth text.toList ∧ ∀ next ∈ rest.head?, next.joinsWord = false
  | closeGroup => 0 < depth
  | comma => 0 < depth
  | _ => True

/-- Each token fits where it stands, `depth` groups being open at first. -/
def Legible (depth : Nat) : List Token → Prop
  | [] => True
  | token :: rest => token.Stands depth rest ∧ Legible (token.depthAfter depth) rest

theorem toList_spaced_cons (token : Token) (rest : List Token) :
    (spaced (token :: rest)).toList =
      token.source.toList ++ rest.flatMap fun next => ' ' :: next.source.toList := by
  rw [spaced, String.toList_intercalate]
  induction rest generalizing token with
  | nil => simp
  | cons next rest ih =>
    have hNext := ih next
    simp only [List.map_cons] at hNext ⊢
    rw [List.intercalate_cons_cons, hNext, List.flatMap_cons]
    simp

end Token

/-! ## The tokens of a text -/

namespace Piece

open Token (Legible)

theorem isWord_trim {before : List Piece} {depth : Nat} {s rest : List Char}
    (hDepth : Opens before depth) (h : Between before s rest) (hNonempty : Text.trim s ≠ []) :
    IsWord depth (Text.trim s) := by
  obtain ⟨lead, trail, hSplit, hLead⟩ := Text.exists_eq_append_trim s
  have hInfix : Text.trim s <:+: s := ⟨lead, trail, by rw [List.append_assoc, ← hSplit]⟩
  have hUncut {c : Char} (hc : c ∈ Text.trim s) : ∃ xs ys, Uncut before xs c ys := by
    obtain ⟨xs, ys, hText⟩ := List.append_of_mem (hInfix.subset hc)
    exact ⟨xs, ys ++ rest, h.inside xs c ys hText⟩
  refine ⟨hNonempty, Text.trimmed_trim s, fun o hOperator => ?_, fun hc => ?_, fun hc => ?_,
    fun hc => ?_, fun hHead => ?_⟩
  · obtain ⟨xs, ys, hText⟩ := hOperator.trans hInfix
    obtain ⟨first, others, hLetters⟩ := List.exists_cons_of_ne_nil o.letters_ne_nil
    rw [hLetters, List.append_assoc, List.cons_append] at hText
    refine (h.inside xs first (others ++ ys) hText.symm).operator o ⟨ys ++ rest, ?_⟩
    rw [hLetters, List.cons_append, List.append_assoc]
  · obtain ⟨_, _, hCut⟩ := hUncut hc
    exact hCut.openGroup rfl
  · obtain ⟨_, _, hCut⟩ := hUncut hc
    exact hCut.closeGroup rfl
  · obtain ⟨_, _, hCut⟩ := hUncut hc
    simpa [hDepth.inGroup_iff] using hCut.comma rfl
  · -- Only blanks stand in front of the word.
    obtain ⟨others, hWord⟩ := List.head?_eq_some_iff.mp hHead
    rw [hWord, List.cons_append] at hSplit
    exact (h.inside lead '@' _ hSplit).element rfl (Text.trim_eq_nil_iff.mpr hLead)

theorem legible_of_cut {before pieces : List Piece} {depth : Nat} (hDepth : Opens before depth)
    (h : Cut before pieces) : Legible depth (pieces.filterMap token?) := by
  induction pieces generalizing before depth with
  | nil => trivial
  | cons piece pieces ih =>
    obtain ⟨hFits, hCut⟩ := h
    cases piece with
    | op o => exact ⟨trivial, ih (opens_concat hDepth (by simp)) hCut⟩
    | mark m =>
      have hRest := ih (opens_mark hDepth hFits) hCut
      have hGroup := hDepth.inGroup_iff
      cases m with
      | openGroup | element => exact ⟨trivial, hRest⟩
      | closeGroup | comma => exact ⟨hGroup.mp hFits, hRest⟩
    | run s =>
      have hRest := ih (opens_concat hDepth (by simp)) hCut
      by_cases hBlank : Text.trim s = []
      · simpa [token?, hBlank] using hRest
      · have hToken : (run s).token? = some (.word (String.ofList (Text.trim s))) := if_neg hBlank
        rw [List.filterMap_cons, hToken]
        refine ⟨⟨?_, fun next hNext => ?_⟩, hRest⟩
        · rw [String.toList_ofList]
          exact isWord_trim hDepth hFits hBlank
        · have hPending : Text.trim (pending (before ++ [run s])) ≠ [] := by
            simpa [pending] using hBlank
          obtain ⟨hElement, hWord⟩ := head?_filterMap_of_cut hCut hPending hNext
          cases next with
          | element => exact absurd rfl hElement
          | word text => exact absurd rfl (hWord text)
          | _ => rfl

end Piece

/-! ## Reading what is written out -/

namespace Token

theorem ofWord_append_blank {word blanks : List Char} (h : ∀ c ∈ blanks, Text.isBlank c = true) :
    ofWord (word ++ blanks) = ofWord word := by
  rw [ofWord, ofWord, Text.trim_append_of_blank h]

theorem ofWord_append_word {depth : Nat} {text : String} (h : IsWord depth text.toList)
    {word : List Char} (hWord : Text.trim word = []) :
    ofWord (word ++ text.toList) = [.word text] := by
  obtain ⟨first, others, hLetters⟩ := List.exists_cons_of_ne_nil h.nonempty
  rw [ofWord, Text.trim_append_of_trimmed hWord h.trimmed, hLetters]
  exact congrArg (fun s => [Token.word s]) (hLetters ▸ String.ofList_toList)

theorem scan_blank (depth : Nat) (word rest : List Char) (position : Nat) :
    scan position depth word (' ' :: rest) = scan (position + 1) depth (word ++ [' ']) rest := by
  have hOperator : Operator.longestAt? (' ' :: rest) = none := by
    refine Operator.longestAt?_eq_none.mpr fun o hPrefix => ?_
    have hNone : o.letters <+: [] := Operator.prefix_of_blank hPrefix (by simp; rfl)
    exact o.letters_ne_nil (List.prefix_nil.mp hNone)
  have hPunctuation : punctuation? depth word ' ' = none := by simp [punctuation?]
  rw [scan, hOperator]
  simp only [hPunctuation]

variable {depth : Nat} {word s : List Char}

/-- What stands behind a token is read as `rest` unless a word is pending that it would join. -/
def Continues (depth : Nat) (s : List Char) (rest : List Token) : Prop :=
  ∀ position word, (∀ next ∈ rest.head?, next.joinsWord = true → Text.trim word = []) →
    scan position depth word s = .ok (ofWord word ++ rest)

theorem punctuation?_letter {m : Mark} {rest : List Token} (h : m.token.Stands depth rest)
    (hWord : m.token.joinsWord = true → Text.trim word = []) :
    punctuation? depth word m.letter = some m.token ∧ ¬ (m.token = .closeGroup ∧ depth = 0) := by
  constructor
  · refine Mark.punctuation?_eq_some_iff.mpr ⟨m, rfl, rfl, ?_⟩
    cases m with
    | openGroup | closeGroup => trivial
    | comma => exact h
    | element => exact hWord rfl
  · rintro ⟨hClose, rfl⟩
    rw [hClose] at h
    exact Nat.lt_irrefl 0 h

theorem scan_mark {m : Mark} {rest : List Token} (h : m.token.Stands depth rest)
    (hWord : m.token.joinsWord = true → Text.trim word = [])
    (hRest : Continues (m.token.depthAfter depth) s rest) (position : Nat) :
    scan position depth word (m.letter :: s) = .ok (ofWord word ++ m.token :: rest) := by
  obtain ⟨hToken, hClose⟩ := punctuation?_letter h hWord
  rw [Piece.scan_mark hToken hClose, hRest (position + 1) [] fun _ _ _ => rfl]
  rfl

theorem scan_word {text : String} {rest : List Token} (h : IsWord depth text.toList)
    (hNext : ∀ next ∈ rest.head?, next.joinsWord = false) (hWord : Text.trim word = [])
    (hBlank : ∀ c ∈ s.head?, Text.isBlank c = true) (hRest : Continues depth s rest)
    (position : Nat) :
    scan position depth word (text.toList ++ s) = .ok (ofWord word ++ .word text :: rest) := by
  rw [Piece.scan_uncut word (fun us c vs hSplit => ⟨?_, ?_⟩) position,
    hRest _ _ fun next hHead hJoins => absurd hJoins (by simp [hNext next hHead])]
  · rw [ofWord_append_word h hWord, ofWord, hWord]
    rfl
  · refine Operator.longestAt?_eq_none.mpr fun o hPrefix => h.operator o ?_
    rw [← List.cons_append] at hPrefix
    rw [hSplit]
    exact (Operator.prefix_of_blank hPrefix hBlank).isInfix.trans (List.suffix_append _ _).isInfix
  · have hc : c ∈ text.toList := by simp [hSplit]
    refine Option.eq_none_iff_forall_ne_some.mpr fun token hToken => ?_
    obtain ⟨m, rfl, _, hCuts⟩ := Mark.punctuation?_eq_some_iff.mp hToken
    cases m with
    | openGroup => exact h.openGroup hc
    | closeGroup => exact h.closeGroup hc
    | comma => exact Nat.ne_of_gt hCuts (h.comma hc)
    | element =>
      cases us with
      | nil => exact h.element (by rw [hSplit]; rfl)
      | cons first us =>
        -- The word begins with a letter that is no blank.
        have hFirst := Text.trim_eq_nil_iff.mp hCuts first (by simp)
        rw [h.trimmed.1 first (by rw [hSplit]; rfl)] at hFirst
        cases hFirst

/-- One token is read off, and a word that is pending is put out before it. -/
theorem scan_source {token : Token} {rest : List Token} (h : token.Stands depth rest)
    (hWord : token.joinsWord = true → Text.trim word = [])
    (hBlank : ∀ c ∈ s.head?, Text.isBlank c = true)
    (hRest : Continues (token.depthAfter depth) s rest) (position : Nat) :
    scan position depth word (token.source.toList ++ s) = .ok (ofWord word ++ token :: rest) := by
  cases token with
  | op o =>
    have hBehind : scan (position + o.letters.length) depth [] s = .ok rest :=
      hRest _ [] fun _ _ _ => rfl
    rw [source, Operator.spelling, String.toList_ofList,
      Piece.scan_operator (Operator.longestAt?_letters hBlank), hBehind]
    rfl
  | word text => exact scan_word h.1 h.2 (hWord rfl) hBlank hRest position
  | element => exact scan_mark (m := .element) h hWord hRest position
  | openGroup => exact scan_mark (m := .openGroup) h hWord hRest position
  | closeGroup => exact scan_mark (m := .closeGroup) h hWord hRest position
  | comma => exact scan_mark (m := .comma) h hWord hRest position

theorem continues_spaced {tokens : List Token} (h : Legible depth tokens) :
    Continues depth (tokens.flatMap fun token => ' ' :: token.source.toList) tokens := by
  induction tokens generalizing depth with
  | nil =>
    intro position word _
    simp [scan]
  | cons token rest ih =>
    obtain ⟨hStands, hRest⟩ := h
    intro position word hWord
    have hPending : ofWord (word ++ [' ']) = ofWord word := ofWord_append_blank (by simp; rfl)
    rw [List.flatMap_cons, List.cons_append, scan_blank, ← hPending]
    refine scan_source hStands (fun hJoins => ?_) ?_ (ih hRest) (position + 1)
    · rw [Text.trim_append_of_blank (by simp; rfl)]
      exact hWord token rfl hJoins
    · cases rest <;> simp [Text.isBlank]

theorem ofText_spaced_of_legible {tokens : List Token} (h : Legible 0 tokens) :
    ofText (spaced tokens) = .ok tokens := by
  cases tokens with
  | nil =>
    have hEmpty : (spaced []).toList = [] := by simp [spaced]
    rw [ofText, hEmpty, scan]
    rfl
  | cons token rest =>
    obtain ⟨hStands, hRest⟩ := h
    rw [ofText, toList_spaced_cons]
    refine scan_source hStands (fun _ => rfl) ?_ (continues_spaced hRest) 0
    cases rest <;> simp [Text.isBlank]

theorem legible_of_ofText {text : String} {tokens : List Token} (h : ofText text = .ok tokens) :
    Legible 0 tokens := by
  obtain ⟨pieces, _, hCut, rfl⟩ := Piece.exists_cut_of_scan Piece.opens_nil rfl (by simp) h
  exact Piece.legible_of_cut Piece.opens_nil hCut

theorem exists_ofText_iff_legible {tokens : List Token} :
    (∃ text, ofText text = .ok tokens) ↔ Legible 0 tokens :=
  ⟨fun ⟨_, h⟩ => legible_of_ofText h, fun h => ⟨spaced tokens, ofText_spaced_of_legible h⟩⟩

/-- The tokens of a text are read again from what is written for them. -/
theorem ofText_spaced {text : String} {tokens : List Token} (h : ofText text = .ok tokens) :
    ofText (spaced tokens) = .ok tokens :=
  ofText_spaced_of_legible (legible_of_ofText h)

/-- Without the blanks in it, this text would have the operators `$.`, `!sort` and `[].`. -/
theorem ofText_spaced_blanks :
    let text := " $ .a, b(@@,! sort[] .c@)"
    let tokens := [.word "$", .op .field, .word "a, b", .openGroup, .element, .element, .comma,
      .op .not, .word "sort[]", .op .field, .word "c@", .closeGroup]
    ofText text = .ok tokens ∧ spaced tokens = "$ . a, b ( @ @ , ! sort[] . c@ )" ∧
      ofText (spaced tokens) = .ok tokens := by
  intro text tokens
  have hText : ofText " $ .a, b(@@,! sort[] .c@)" = .ok tokens := by cbv
  exact ⟨hText, rfl, ofText_spaced hText⟩

end Token

end Expression

end Reshape
