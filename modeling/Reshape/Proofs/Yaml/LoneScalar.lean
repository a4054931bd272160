import Reshape.Proofs.Except
import Reshape.Proofs.Yaml.PlainText
import Reshape.Yaml.Node

/-!
# Texts of a single plain scalar

A text that is a word or a numeral between spaces is the document of this scalar. Only a tab may not
stand in front of it, since there a key could begin.
-/

namespace Reshape.Yaml

/-! ## The tokens -/

namespace Scanner

/-- At the beginning of a text, in which nothing but space has been passed. -/
def opening (c : Cursor) : Scanner := ⟨c, [], -1, [], true, none, []⟩

/-- A space is passed in front of a token, and a tab too where no key could begin. -/
def passes (st : Scanner) (d : Char) : Bool :=
  d == ' ' || ((st.inFlow || !st.keyAllowed) && d == '\t')

/-- Without a comment and without a byte order mark nothing else is passed but line breaks. -/
theorem skipToToken_step {bound : Nat} {st : Scanner}
    (hMark : st.cursor.test 0 (· == '\ufeff') = false)
    (hHash : (st.cursor.skipWhile st.passes).test 0 (· == '#') = false) :
    skipToToken (bound + 1) st =
      let next := st.cursor.skipWhile st.passes
      if next.test 0 isBreak then
        skipToToken bound
          { st with cursor := next.lineBreak.2, keyAllowed := st.keyAllowed || !st.inFlow }
      else { st with cursor := next } := by
  have hNext : (st.cursor.skipWhile fun d =>
      d == ' ' || ((st.inFlow || !st.keyAllowed) && d == '\t')) =
      st.cursor.skipWhile st.passes := rfl
  rw [skipToToken, hMark]
  simp only [Bool.false_eq_true, and_false, if_false, hNext, hHash]

theorem skipToToken_of_nil {bound : Nat} {st : Scanner} (h : st.cursor.rest = []) :
    ∃ c, c.rest = [] ∧ skipToToken (bound + 1) st = { st with cursor := c } := by
  have hNext : (st.cursor.skipWhile st.passes).rest = [] := by
    rw [Cursor.skipWhile_rest, h]
    rfl
  refine ⟨st.cursor.skipWhile st.passes, hNext, ?_⟩
  rw [skipToToken_step (Cursor.test_of_nil h _) (Cursor.test_of_nil hNext _)]
  exact if_neg (by simp [h])

/-- Spaces and line breaks, in front of something else. -/
structure Leads (lead rest : List Char) : Prop where
  space : ∀ c ∈ lead, c = ' ' ∨ c = '\n' ∨ c = '\r'
  next : ∀ c ∈ rest.head?, c ≠ ' ' ∧ c ≠ '#' ∧ c ≠ '\ufeff' ∧ isBreak c = false

theorem Leads.of_suffix {lead rest suffix : List Char} (h : Leads lead rest)
    (hSuffix : suffix <:+ lead) : Leads suffix rest :=
  ⟨fun c hc => h.space c (hSuffix.subset hc), h.next⟩

/-- The next character is no byte order mark and does not begin a comment. -/
theorem Leads.head {lead rest : List Char} (h : Leads lead rest) :
    ∀ c ∈ (lead ++ rest).head?, c ≠ '#' ∧ c ≠ '\ufeff' := by
  intro c hc
  cases lead with
  | nil => exact ⟨(h.next c hc).2.1, (h.next c hc).2.2.1⟩
  | cons b lead =>
    cases hc
    rcases h.space c List.mem_cons_self with rfl | rfl | rfl <;> decide

theorem Leads.dropWhile_space {lead rest : List Char} (h : Leads lead rest) :
    (lead ++ rest).dropWhile (· == ' ') = lead.dropWhile (· == ' ') ++ rest := by
  rw [List.dropWhile_append]
  split
  · rename_i hEmpty
    rw [List.isEmpty_iff.mp hEmpty]
    cases rest with
    | nil => rfl
    | cons d rest => exact List.dropWhile_cons_of_neg (by simp [(h.next d rfl).1])
  · rfl

/-- A line break takes one character of the space, or two. -/
theorem Leads.lineBreak_rest {b : Char} {lead rest : List Char} (h : Leads (b :: lead) rest)
    (hBreak : isBreak b = true) {c : Cursor} (hCursor : c.rest = b :: lead ++ rest) :
    ∃ suffix, suffix <:+ lead ∧ c.lineBreak.2.rest = suffix ++ rest := by
  obtain hRest | ⟨tail, hFeed, hRest⟩ := Cursor.lineBreak_rest hCursor hBreak
  · exact ⟨lead, List.suffix_refl lead, hRest⟩
  · cases lead with
    | nil =>
      have hFeed : rest = '\n' :: tail := hFeed
      rw [hFeed] at h
      cases (h.next '\n' rfl).2.2.2
    | cons d lead =>
      cases hFeed
      exact ⟨lead, List.suffix_cons _ _, hRest⟩

/-- Space without tabs is passed in front of what begins a token, or of what none can begin with. -/
theorem skipToToken_opening {lead rest : List Char} (h : Leads lead rest) {bound : Nat}
    (hBound : lead.length < bound) {c : Cursor} (hCursor : c.rest = lead ++ rest) :
    ∃ c', c'.rest = rest ∧ skipToToken bound (opening c) = opening c' := by
  induction bound generalizing lead c with
  | zero => cases hBound
  | succ bound ih =>
    have hPasses : (opening c).passes = (· == ' ') := by
      funext d
      simp [passes, opening, inFlow]
    have hSuffix : lead.dropWhile (· == ' ') <:+ lead := List.dropWhile_suffix _
    have hLeads := h.of_suffix hSuffix
    have hNext : (c.skipWhile (opening c).passes).rest = lead.dropWhile (· == ' ') ++ rest := by
      rw [Cursor.skipWhile_rest, hCursor, hPasses, h.dropWhile_space]
    have hMark := Cursor.test_of_rest hCursor fun d hd => beq_eq_false_iff_ne.mpr (h.head d hd).2
    have hHash := Cursor.test_of_rest hNext fun d hd => beq_eq_false_iff_ne.mpr (hLeads.head d hd).1
    rw [skipToToken_step hMark hHash]
    change ∃ c', _ ∧ (if (c.skipWhile (opening c).passes).test 0 isBreak then
      skipToToken bound (opening (c.skipWhile (opening c).passes).lineBreak.2)
      else opening (c.skipWhile (opening c).passes)) = _
    cases hLead : lead.dropWhile (· == ' ') with
    | nil =>
      rw [hLead] at hNext
      refine ⟨_, hNext, if_neg ?_⟩
      rw [Cursor.test_of_rest hNext fun d hd => (h.next d hd).2.2.2]
      exact Bool.false_ne_true
    | cons b suffix =>
      have hBreak : isBreak b = true := by
        have hNotSpace := List.head?_dropWhile_not (· == ' ') lead
        rw [hLead] at hNotSpace hLeads
        rcases hLeads.space b List.mem_cons_self with rfl | rfl | rfl
        · cases hNotSpace
        · rfl
        · rfl
      rw [hLead] at hNext hLeads hSuffix
      obtain ⟨rest', hRest', hCursor'⟩ := hLeads.lineBreak_rest hBreak hNext
      have hLength := hSuffix.length_le
      have hLength' := hRest'.length_le
      rw [List.length_cons] at hLength
      rw [if_pos (by rw [Cursor.test_zero, hNext]; exact hBreak)]
      exact ih (hLeads.of_suffix (hRest'.trans (List.suffix_cons b suffix))) (by omega) hCursor'

theorem not_isIndicator_of_isAlphanum {c : Char} (h : c.isAlphanum = true) :
    isIndicator c = false := by
  rw [Bool.eq_false_iff]
  intro hIndicator
  have hMem := List.contains_iff_mem.mp hIndicator
  simp only [List.mem_cons, List.not_mem_nil, or_false] at hMem
  repeat
    rcases hMem with rfl | hMem
    · cases h

theorem scanToken_of_bare {s rest : List Char} {d : Char} {c : Cursor} (hBare : Bare (d :: s))
    (hRest : c.rest = d :: s ++ rest) : scanToken (opening c) d = scanPlain (opening c) := by
  have hMark := Cursor.atDocumentMark_of_bare hBare hRest
  have hCursor : (opening c).cursor = c := rfl
  have hFlow : (opening c).inFlow = false := rfl
  obtain ⟨hChars, e, tail, hLetter, hFirst | hSecond⟩ := hBare
  · cases hFirst
    have hIndicator := not_isIndicator_of_isAlphanum hLetter
    have hGap := (plain_of_isBareChar (isBareChar_of_isAlphanum hLetter)).2.1
    have hStart : (opening c).startsPlain d = true := by
      simp [startsPlain, hIndicator, hGap]
    simp only [isIndicator, List.contains_eq_mem, List.mem_cons, List.not_mem_nil, or_false,
      decide_eq_false_iff_not, not_or] at hIndicator
    simp [scanToken, hCursor, hMark, hStart, hIndicator]
  · cases hSecond
    have hGap := (plain_of_isBareChar (isBareChar_of_isAlphanum hLetter)).2.1
    have hBlank : isSpaceOrTab e = false := (Bool.or_eq_false_iff.mp hGap).1
    have hSecond : c.at? 1 = some e := by
      rw [Cursor.at?, hRest]
      rfl
    have hLoose : c.gapOrEndAt 1 = false := by
      rw [Cursor.gapOrEndAt, hSecond]
      exact hGap
    have hStart : (opening c).startsPlain '-' = true := by
      simp [startsPlain, hCursor, Cursor.test, hSecond, hBlank]
    simp [scanToken, hCursor, hMark, hStart, hLoose]

/-- A tab is no token, and no token begins with one. -/
theorem scanToken_tab {c : Cursor} {rest : List Char} (hRest : c.rest = '\t' :: rest) :
    scanToken (opening c) '\t' = .error .unexpectedCharacter := by
  have hMark : c.atDocumentMark = false := by
    simp [Cursor.atDocumentMark, Cursor.startsWith, hRest]
  have hCursor : (opening c).cursor = c := rfl
  have hStart : (opening c).startsPlain '\t' = false := rfl
  simp [scanToken, hCursor, hMark, hStart]

/-- Behind the scalar, with the key that it could have been if a colon followed. -/
def closing (c : Cursor) (s : List Char) (broken : Bool) (key : Option PossibleKey) : Scanner :=
  ⟨c, [.scalar s true], -1, [], broken, key, []⟩

theorem scanPlain_opening {s trail : List Char} {c : Cursor} (hBare : Bare s)
    (hTrail : ∀ d ∈ trail, Json.isSpace d = true) (hRest : c.rest = s ++ trail) :
    ∃ c' broken key, scanPlain (opening c) = .ok (closing c' s broken (some key)) ∧ c'.rest = [] ∧
      key.required = false := by
  obtain ⟨broken, c', hScalar, hEnd⟩ := plainScalar_bare hBare hTrail hRest
  have hSave : saveKey (opening c) =
      .ok { opening c with possibleKey := some ⟨false, 0, c.offset, c.line, c.column⟩ } := rfl
  refine ⟨c', broken, ⟨false, 0, c.offset, c.line, c.column⟩, ?_, hEnd, rfl⟩
  exact bind_eq_ok.mpr ⟨_, hSave, bind_eq_ok.mpr ⟨_, hScalar, rfl⟩⟩

/-- Outside of all blocks none ends. -/
theorem endBlocks_of_outside {st : Scanner} {column : Int} (hIndent : st.indent = -1)
    (hOuter : st.outerIndents = []) (hColumn : -1 ≤ column) : endBlocks column st = st := by
  have hInside : decide (column < -1) = false := decide_eq_false (by omega)
  obtain ⟨c, tokens, indent, outerIndents, keyAllowed, possibleKey, outerKeys⟩ := st
  cases hIndent
  cases hOuter
  rw [endBlocks]
  split
  · rfl
  · simp [hInside]

section Round

variable {bound : Nat} {st next : Scanner}
  (hNext : (skipToToken (st.cursor.rest.length + 1) st).expireKeys = .ok next)
  (hIndent : next.indent = -1) (hOuter : next.outerIndents = [])

include hNext hIndent hOuter

theorem scanAll_of_nil (hRest : next.cursor.rest = []) {last : Scanner}
    (hLast : next.endDocument = .ok last) : scanAll (bound + 1) st = .ok last.tokens.reverse := by
  have hBlocks : endBlocks next.cursor.column next = next :=
    endBlocks_of_outside hIndent hOuter (by omega)
  refine bind_eq_ok.mpr ⟨next, hNext, ?_⟩
  simp only [hBlocks, hRest]
  exact bind_eq_ok.mpr ⟨last, hLast, rfl⟩

theorem scanAll_of_cons {d : Char} {rest : List Char} (hRest : next.cursor.rest = d :: rest) :
    scanAll (bound + 1) st = next.scanToken d >>= scanAll bound := by
  have hBlocks : endBlocks next.cursor.column next = next :=
    endBlocks_of_outside hIndent hOuter (by omega)
  have hStart (f : Scanner → Except Fault (List Token)) : (Except.ok next >>= f) = f next := rfl
  rw [scanAll, hNext, hStart]
  simp only [hBlocks, hRest]

end Round

theorem scanAll_closing {bound : Nat} {c : Cursor} {s : List Char} {broken : Bool}
    {key : PossibleKey} (hRest : c.rest = []) (hKey : key.required = false) :
    scanAll (bound + 1) (closing c s broken (some key)) = .ok [.scalar s true] := by
  have hCursor : (closing c s broken (some key)).cursor.rest = [] := hRest
  obtain ⟨c', hRest', hSkip⟩ := skipToToken_of_nil hCursor
  have hExpire : ∃ key', expire c' (some key) = .ok key' ∧ ∀ k ∈ key', k.required = false := by
    rw [expire, hKey]
    split
    · exact ⟨none, rfl, by simp⟩
    · exact ⟨some key, rfl, by simp [hKey]⟩
  obtain ⟨key', hExpire, hKey'⟩ := hExpire
  have hNext : (skipToToken ((closing c s broken (some key)).cursor.rest.length + 1)
      (closing c s broken (some key))).expireKeys = .ok (closing c' s broken key') := by
    rw [hSkip]
    exact bind_eq_ok.mpr ⟨key', hExpire, rfl⟩
  have hRemove : removeKey (closing c' s broken key') = .ok (closing c' s broken none) := by
    cases key' with
    | none => rfl
    | some k => exact if_neg (by simp [hKey' k rfl])
  have hLast : endDocument (closing c' s broken key') =
      .ok { closing c' s broken none with keyAllowed := false } := by
    rw [endDocument, endBlocks_of_outside rfl rfl (by decide), hRemove]
    rfl
  exact scanAll_of_nil hNext rfl rfl hRest' hLast

theorem scanAll_opening {lead rest : List Char} {d : Char} {bound : Nat} {c : Cursor}
    (h : Leads lead (d :: rest)) (hRest : c.rest = lead ++ d :: rest) :
    ∃ c', c'.rest = d :: rest ∧
      scanAll (bound + 1) (opening c) = scanToken (opening c') d >>= scanAll bound := by
  obtain ⟨c', hRest', hSkip⟩ := skipToToken_opening h
    (show lead.length < (opening c).cursor.rest.length + 1 by
      change lead.length < c.rest.length + 1
      rw [hRest, List.length_append]
      omega) hRest
  refine ⟨c', hRest', ?_⟩
  have hNext : (skipToToken ((opening c).cursor.rest.length + 1) (opening c)).expireKeys =
      .ok (opening c') := by
    rw [hSkip]
    rfl
  exact scanAll_of_cons hNext rfl rfl hRest'

theorem scanAll_bare {lead s trail : List Char} {c : Cursor} {bound : Nat} (hBare : Bare s)
    (hLead : ∀ d ∈ lead, d = ' ' ∨ d = '\n' ∨ d = '\r')
    (hTrail : ∀ d ∈ trail, Json.isSpace d = true) (hRest : c.rest = lead ++ (s ++ trail)) :
    scanAll (bound + 2) (opening c) = .ok [.scalar s true] := by
  obtain ⟨d, tail, rfl⟩ := List.exists_cons_of_ne_nil hBare.ne_nil
  have hLeads : Leads lead (d :: (tail ++ trail)) := by
    refine ⟨hLead, ?_⟩
    rintro _ ⟨⟩
    have hChar := hBare.1 d List.mem_cons_self
    obtain ⟨_, hGap, _⟩ := plain_of_isBareChar hChar
    refine ⟨?_, ?_, ?_, (Bool.or_eq_false_iff.mp hGap).2⟩
    · rintro rfl
      cases hChar
    · rintro rfl
      cases hChar
    · rintro rfl
      cases hChar
  obtain ⟨c', hCursor, hScan⟩ := scanAll_opening hLeads hRest
  obtain ⟨last, broken, key, hPlain, hEnd, hKey⟩ := scanPlain_opening hBare hTrail hCursor
  rw [hScan, scanToken_of_bare hBare hCursor, hPlain]
  exact scanAll_closing hEnd hKey

theorem scanAll_tab {lead rest : List Char} {c : Cursor} {bound : Nat}
    (hLead : ∀ d ∈ lead, d = ' ' ∨ d = '\n' ∨ d = '\r') (hRest : c.rest = lead ++ '\t' :: rest) :
    scanAll (bound + 1) (opening c) = .error .unexpectedCharacter := by
  have hLeads : Leads lead ('\t' :: rest) := by
    refine ⟨hLead, ?_⟩
    rintro _ ⟨⟩
    decide
  obtain ⟨c', hCursor, hScan⟩ := scanAll_opening hLeads hRest
  rw [hScan, scanToken_tab hCursor]
  rfl

end Scanner

/-! ## The document -/

namespace Node

/-- A word or a numeral between spaces, with no tab in front, is read as the scalar alone. -/
theorem read_lone {lead s trail : List Char} (hBare : Bare s)
    (hLead : ∀ c ∈ lead, c = ' ' ∨ c = '\n' ∨ c = '\r')
    (hTrail : ∀ c ∈ trail, Json.isSpace c = true) {text : String}
    (hText : text.toList = lead ++ (s ++ trail)) : read text = resolvePlain s := by
  have hAllowed : text.toList.all isAllowed = true := by
    rw [hText, List.all_eq_true]
    intro c hc
    rcases List.mem_append.mp hc with hc | hc
    · rcases hLead c hc with rfl | rfl | rfl <;> rfl
    · rcases List.mem_append.mp hc with hc | hc
      · exact (plain_of_isBareChar (hBare.1 c hc)).1
      · rcases mem_of_isSpace (hTrail c hc) with rfl | rfl | rfl | rfl <;> rfl
  obtain ⟨d, tail, hCons⟩ := List.exists_cons_of_ne_nil hBare.ne_nil
  obtain ⟨bound, hBound⟩ : ∃ bound, text.toList.length + 1 = bound + 2 := by
    refine ⟨text.toList.length - 1, ?_⟩
    have hLength : 0 < text.toList.length := by
      rw [hText, hCons]
      simp only [List.length_append, List.length_cons]
      omega
    omega
  have hTokens : Token.ofText text = .ok [.scalar s true] := by
    rw [Token.ofText, if_pos hAllowed, hBound]
    exact Scanner.scanAll_bare hBare hLead hTrail hText
  have hSerial : Serial.ofTokens [.scalar s true] = .ok (some (.scalar .none s true)) := rfl
  have hNode : (ofSerial (.scalar .none s true) depthLimit (.scalar .none s true)).run 100 =
      (do return (← resolvePlain s, 100) : Except Fault (Node × Nat)) := by
    rw [ofSerial]
    rfl
  rw [read, hTokens]
  change (Serial.ofTokens [.scalar s true] >>= fun tree => _) = _
  rw [hSerial]
  change ((ofSerial (.scalar .none s true) depthLimit (.scalar .none s true)).run 100 >>=
    fun node => .ok node.1) = _
  rw [hNode]
  cases resolvePlain s <;> rfl

theorem read_tab {lead rest : List Char} (hLead : ∀ c ∈ lead, c = ' ' ∨ c = '\n' ∨ c = '\r')
    {text : String} (hText : text.toList = lead ++ '\t' :: rest) :
    ∃ fault, read text = .error fault := by
  have hTokens : ∃ fault, Token.ofText text = .error fault := by
    rw [Token.ofText]
    split
    · exact ⟨_, Scanner.scanAll_tab hLead hText⟩
    · exact ⟨_, rfl⟩
  obtain ⟨fault, hTokens⟩ := hTokens
  refine ⟨fault, ?_⟩
  rw [read, hTokens]
  rfl

end Node

end Reshape.Yaml
