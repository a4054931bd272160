import Reshape.Proofs.CommandLine.Stages
import Reshape.Proofs.Json.WellFormed
import Reshape.Proofs.Yaml.JsonScalar
import Reshape.Proofs.Yaml.LoneScalar

/-!
# JSON on the standard input

Containers and strings of JSON are told by their first character. Words and numbers go to the reader
of YAML, which takes every word and every integer for what it is in JSON, but not every double, and
no text with a tab in front.
-/

namespace Reshape

open Json (isSpace skipSpace Opens BareText)
open Yaml (Bare)

variable {text : String} {v : Value} {body trail : List Char}

/-! ## Formats -/

theorem Text.isBlank_of_isSpace {c : Char} (h : isSpace c = true) : isBlank c = true := by
  rcases Yaml.mem_of_isSpace h with rfl | rfl | rfl | rfl <;> rfl

theorem Text.trimStart_eq_skipSpace {s : List Char}
    (h : ∀ c ∈ (skipSpace s).head?, isBlank c = false) : trimStart s = skipSpace s := by
  have hLead : ∀ c ∈ s.takeWhile isSpace, isBlank c = true := fun c hc =>
    isBlank_of_isSpace (List.mem_takeWhile_imp hc)
  have hDrop : trimStart (s.takeWhile isSpace ++ skipSpace s) = trimStart (skipSpace s) :=
    List.dropWhile_append_of_pos hLead
  rw [Json.takeWhile_append_skipSpace] at hDrop
  rw [hDrop]
  cases hRest : skipSpace s with
  | nil => rfl
  | cons c rest =>
    rw [hRest] at h
    exact List.dropWhile_cons_of_neg (by simp [h c rfl])

theorem Format.detect_of_opens (h : Opens (skipSpace text.toList)) : detect text = .json := by
  obtain ⟨c, hc, hOpens⟩ := h
  obtain ⟨rest, hRest⟩ := List.head?_eq_some_iff.mp hc
  have hStart : Text.trimStart text.toList = c :: rest := by
    rw [← hRest]
    apply Text.trimStart_eq_skipSpace
    intro d hd
    rw [hc] at hd
    cases hd
    rcases hOpens with rfl | rfl | rfl <;> rfl
  rw [detect, hStart]
  rcases hOpens with rfl | rfl | rfl <;> rfl

theorem Format.detect_of_bare (hBare : Bare body)
    (hSkip : skipSpace text.toList = body ++ trail) : detect text = .yaml := by
  obtain ⟨c, rest, rfl⟩ := List.exists_cons_of_ne_nil hBare.ne_nil
  have hc := hBare.1 c List.mem_cons_self
  have hStart : Text.trimStart text.toList = c :: (rest ++ trail) := by
    refine (Text.trimStart_eq_skipSpace ?_).trans hSkip
    rw [hSkip]
    rintro _ ⟨⟩
    exact Yaml.isBlank_of_isBareChar hc
  rw [detect, hStart]
  split
  · rename_i hHead
    cases hHead
    cases hc
  · rename_i hHead
    cases hHead
    cases hc
  · rename_i hHead
    cases hHead
    cases hc
  · rfl

theorem Text.trim_bare {lead : List Char} (hBare : Bare body)
    (hLead : ∀ c ∈ lead, isSpace c = true) (hTrail : ∀ c ∈ trail, isSpace c = true) :
    trim (lead ++ (body ++ trail)) = body := by
  have hBefore : trim lead = [] :=
    trim_eq_nil_iff.mpr fun c hc => isBlank_of_isSpace (hLead c hc)
  have hTrimmed : Trimmed body :=
    trimmed_of_forall fun c hc => Yaml.isBlank_of_isBareChar (hBare.1 c hc)
  rw [← List.append_assoc, trim_append_of_blank fun c hc => isBlank_of_isSpace (hTrail c hc)]
  exact trim_append_of_trimmed hBefore hTrimmed

/-! ## Documents -/

namespace Document

@[simp]
theorem textOf_toByteArray (s : String) : textOf s.toByteArray = .ok s := by
  rw [textOf, String.fromUTF8?, dif_pos s.isValidUTF8]
  rfl

theorem readJson_of_read (h : Json.read text = .ok v) : readJson text = .ok v := by
  rw [readJson, h]

theorem readYaml_eq_ok_iff :
    readYaml text = .ok v ↔ ∃ n, Yaml.Node.read text = .ok n ∧ n.toValue [] = .ok v := by
  unfold readYaml
  cases Yaml.Node.read text with
  | error fault => simp
  | ok n =>
    cases hValue : n.toValue [] with
    | error path => simp [hValue]
    | ok w => simp [hValue]

theorem not_readYaml_of_tab (h : '\t' ∈ text.toList.takeWhile isSpace) :
    readYaml text ≠ .ok v := by
  obtain ⟨before, behind, hLead, hFirst⟩ := List.eq_append_cons_of_mem h
  have hText : text.toList = before ++ '\t' :: (behind ++ skipSpace text.toList) := by
    have hSplit := Json.takeWhile_append_skipSpace text.toList
    rw [hLead, List.append_assoc, List.cons_append] at hSplit
    exact hSplit.symm
  have hBefore : ∀ c ∈ before, c = ' ' ∨ c = '\n' ∨ c = '\r' := by
    intro c hc
    have hMem : c ∈ text.toList.takeWhile isSpace := by
      rw [hLead]
      exact List.mem_append_left _ hc
    apply Yaml.mem_of_isSpace_of_ne (List.mem_takeWhile_imp hMem)
    rintro rfl
    exact hFirst hc
  obtain ⟨fault, hFault⟩ := Yaml.Node.read_tab hBefore hText
  intro hRead
  obtain ⟨n, hNode, _⟩ := readYaml_eq_ok_iff.mp hRead
  rw [hFault] at hNode
  cases hNode

theorem readYaml_bareText_iff (hBody : BareText body v) (hv : v.WellFormed)
    (hSkip : skipSpace text.toList = body ++ trail) (hTrail : ∀ c ∈ trail, isSpace c = true) :
    readYaml text = .ok v ↔ '\t' ∉ text.toList.takeWhile isSpace ∧
      ∀ x, v = .number (.double x) → Yaml.Plain.DenotesDouble (Text.trim text.toList) x := by
  have hBare := Yaml.bare_of_bareText hBody
  have hSpace : ∀ c ∈ text.toList.takeWhile isSpace, isSpace c = true :=
    fun c => List.mem_takeWhile_imp
  have hText : text.toList = text.toList.takeWhile isSpace ++ (body ++ trail) := by
    rw [← hSkip, Json.takeWhile_append_skipSpace]
  have hTrim : Text.trim text.toList = body := by
    rw [hText]
    exact Text.trim_bare hBare hSpace hTrail
  rw [hTrim]
  by_cases hTab : '\t' ∈ text.toList.takeWhile isSpace
  · simp [hTab, not_readYaml_of_tab hTab]
  · have hLead : ∀ c ∈ text.toList.takeWhile isSpace, c = ' ' ∨ c = '\n' ∨ c = '\r' := by
      intro c hc
      apply Yaml.mem_of_isSpace_of_ne (hSpace c hc)
      rintro rfl
      exact hTab hc
    have hNode := Yaml.Node.read_lone hBare hLead hTrail hText
    rw [readYaml_eq_ok_iff, hNode, Yaml.exists_resolvePlain_iff,
      Yaml.resolve?_bareText_iff hBody hv]
    simp [hTab]

end Document

/-! ## The standard input -/

namespace CommandLine

theorem readInput_eq_ok_iff {world : World Id}
    (hText : Document.textOf world.standardInput = .ok text) :
    (readInput world none none).run = (.ok v : Except Report Value) ↔
      Document.read (Format.detect text) text = .ok v := by
  have hRun : (readInput world none none).run =
      ((Document.read (Format.detect text) text).mapError
        (⟨"parsing stdin", documentCauses ·⟩) : Except Report Value) := by
    change (orReport _ _ (Document.textOf world.standardInput) >>= _ : Running Id Value).run = _
    rw [hText]
    exact run_orReport _ _ (Document.read _ text)
  rw [hRun]
  constructor
  · intro h
    cases hRead : Document.read (Format.detect text) text with
    | error fault =>
      rw [hRead] at h
      cases h
    | ok w =>
      rw [hRead] at h
      cases h
      rfl
  · intro h
    rw [h]
    rfl

/--
JSON on the standard input is read as JSON if it is a container or a string, and otherwise exactly
if no tab is in front of it and it is no double that YAML takes for another number or for none.
-/
theorem readInput_json_iff {world : World Id}
    (hText : Document.textOf world.standardInput = .ok text) (hRead : Json.read text = .ok v) :
    (readInput world none none).run = (.ok v : Except Report Value) ↔
      v.isTextual = true ∨
        ('\t' ∉ text.toList.takeWhile Json.isSpace ∧ ∀ x, v = .number (.double x) →
          Yaml.Plain.DenotesDouble (Text.trim text.toList) x) := by
  have hv : v.WellFormed := Json.wellFormed_read hRead
  rw [readInput_eq_ok_iff hText]
  obtain ⟨hOpens, hTextual⟩ | ⟨body, trail, hSkip, hBody, hTrail⟩ := Json.read_ok hRead
  · have hJson := Document.readJson_of_read hRead
    rw [Format.detect_of_opens hOpens]
    exact iff_of_true hJson (.inl hTextual)
  · have hYaml := Document.readYaml_bareText_iff hBody hv hSkip hTrail
    have hNotTextual : ¬ v.isTextual = true := by simp [hBody.not_isTextual]
    rw [Format.detect_of_bare (Yaml.bare_of_bareText hBody) hSkip, or_iff_right hNotTextual]
    exact hYaml

/-- A number between spaces and line breaks, with a tab behind it. -/
theorem readInput_json_iff_exponent :
    let text := "\r\n 1.5e3\t\n"
    let world : World Id := ⟨fun _ => .error .notFound, text.toUTF8⟩
    let v : Value := .number (.double (.ofInt 1500))
    Document.textOf world.standardInput = .ok text ∧ Json.read text = .ok v ∧
      (readInput world none none).run = (.ok v : Except Report Value) := by
  intro text world v
  have hText : Document.textOf world.standardInput = .ok text := by simp [world]
  have hRead : Json.read text = .ok v := by
    have hScale : Json.scale 15 2 = .ofInt 1500 := by decide +kernel
    have hFinite : (Binary64.ofInt 1500).isFinite = true := by decide +kernel
    have hDouble : Json.readDouble false 15 2 ['\t', '\n'] = .ok (v, ['\t', '\n']) := by
      rw [Json.readDouble, hScale]
      exact if_pos hFinite
    have hNumber : Json.readNumber false ['1', '.', '5', 'e', '3', '\t', '\n'] =
        Json.readDouble false 15 2 ['\t', '\n'] := by
      simp [Json.readNumber, Json.gather, Json.fits, Json.startsWithDigit, Json.readRemainder,
        Json.readFraction, Json.readTail, Json.readExponent, Json.gatherExponent, Text.isDigit,
        Text.digitValue]
    have hValue : Json.readValue Json.depthLimit text.toList =
        Json.readNumber false ['1', '.', '5', 'e', '3', '\t', '\n'] := by
      simp [text, Json.depthLimit, Json.readValue, Json.readWith, Json.skipSpace, Json.isSpace,
        Text.isDigit]
    rw [Json.read, Json.readText, hValue, hNumber, hDouble]
    rfl
  refine ⟨hText, hRead, (readInput_json_iff hText hRead).mpr (.inr ⟨by decide, ?_⟩)⟩
  intro x hx
  have hx : Binary64.ofInt 1500 = x := by simpa [v] using hx
  have hTrim : Text.trim text.toList = ['1', '.', '5', 'e', '3'] := by decide
  rw [hTrim, ← hx]
  constructor
  · decide +kernel
  · intro n hNumeral
    cases hNumeral with
    | unsigned _ hDigits => cases hDigits

/-- Minus zero loses its sign, and the tab makes a number unreadable. -/
theorem readInput_minus_zero_and_tab :
    let world (text : String) : World Id := ⟨fun _ => .error .notFound, text.toUTF8⟩
    (Document.textOf (world "-0").standardInput = .ok "-0" ∧
      Json.read "-0" = .ok (.number (.double ⟨true, 0⟩)) ∧
      (readInput (world "-0") none none).run =
        (.ok (.number (.integer 0)) : Except Report Value)) ∧
    (Document.textOf (world "\t1").standardInput = .ok "\t1" ∧
      Json.read "\t1" = .ok (.number (.integer 1)) ∧
      (readInput (world "\t1") none none).run ≠
        (.ok (.number (.integer 1)) : Except Report Value)) := by
  intro world
  have hText (text : String) : Document.textOf (world text).standardInput = .ok text := by
    simp [world]
  constructor
  · refine ⟨hText "-0", ?_, ?_⟩
    · have hZero : (Binary64.ofNat 0).magnitude = 0 := by decide +kernel
      have hValue : Json.readValue Json.depthLimit "-0".toList =
          .ok (.number (.double ⟨true, (Binary64.ofNat 0).magnitude⟩), []) := rfl
      rw [Json.read, Json.readText, hValue, hZero]
      rfl
    · have hFormat : Format.detect "-0" = .yaml := by decide
      have hBare : Bare ['-', '0'] :=
        ⟨List.all_eq_true.mp (by decide), '0', [], by decide, .inr rfl⟩
      have hNode : Yaml.Node.read "-0" = Yaml.Node.resolvePlain ['-', '0'] := by
        apply @Yaml.Node.read_lone [] ['-', '0'] [] hBare
        · simp
        · simp
        · rfl
      have hResolve : Yaml.Plain.resolve? ['-', '0'] = some (.number (.integer 0)) := by decide
      rw [Yaml.Node.resolvePlain, hResolve] at hNode
      rw [readInput_eq_ok_iff (hText "-0"), hFormat, Document.read, Document.readYaml_eq_ok_iff]
      exact ⟨_, hNode, rfl⟩
  · refine ⟨hText "\t1", rfl, ?_⟩
    have hFormat : Format.detect "\t1" = .yaml := by decide
    have hTab : '\t' ∈ "\t1".toList.takeWhile isSpace := by decide
    rw [Ne, readInput_eq_ok_iff (hText "\t1"), hFormat, Document.read]
    exact Document.not_readYaml_of_tab hTab

end CommandLine

end Reshape
