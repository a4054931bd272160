import Reshape.Text.Numeral
import Reshape.Yaml.Cursor

/-!
# Anchors, tags and directives

Tags are kept as the bytes of their UTF-8 text, because they may hold percent escapes of single
bytes. An escaped zero byte ends the text of a tag or of what a handle stands for.
-/

namespace Reshape.Yaml

abbrev Bytes := List UInt8

def bytesOf (s : List Char) : Bytes := s.flatMap String.utf8EncodeChar

inductive Directive where
  | version (major minor : Nat)
  | tag (handle : List Char) (head : Bytes)
  deriving DecidableEq

def anchorEnds : List Char := ['?', ':', ',', ']', '\x7d', '%', '@', '\x60']

def anchorName : Step (List Char) := fun c =>
  let (name, c) := c.span isNameChar
  let ends := c.gapOrEndAt 0 || c.test 0 (anchorEnds.contains ·)
  if name = [] || !ends then .error .malformedAnchor else .ok (name, c)

/-! ## Tags -/

/-- `!`, `!!` or `!name!`; in a tag also the beginning `!name` of a local tag. -/
def tagHandle (inDirective : Bool) : Step (List Char) := fun c =>
  if !c.test 0 (· == '!') then .error .malformedTag
  else
    let (name, c) := (c.skip 1).span isNameChar
    if c.test 0 (· == '!') then .ok ('!' :: name ++ ['!'], c.skip 1)
    else if inDirective && name ≠ [] then .error .malformedTag
    else .ok ('!' :: name, c)

/-- The characters of a tag; some stand only in a verbatim tag or a directive. -/
def isUriChar (verbatim : Bool) (c : Char) : Bool :=
  isNameChar c ||
    [';', '/', '?', ':', '@', '&', '=', '+', '$', '.', '!', '~', '*', '\'', '(', ')'].contains c ||
    (verbatim && [',', '[', ']'].contains c)

def leadWidth? (byte : Nat) : Option Nat :=
  if byte < 0x80 then some 1
  else if 0xC0 ≤ byte ∧ byte < 0xE0 then some 2
  else if 0xE0 ≤ byte ∧ byte < 0xF0 then some 3
  else if 0xF0 ≤ byte ∧ byte < 0xF8 then some 4
  else none

def percentByte? : List Char → Option (Nat × List Char)
  | '%' :: a :: b :: rest => (Text.numeral? 16 [a, b]).map (·, rest)
  | _ => none

def continuationBytes : Nat → List Char → Except Fault (Bytes × List Char)
  | 0, s => .ok ([], s)
  | n + 1, s =>
    match percentByte? s with
    | none => .error .malformedTag
    | some (byte, rest) =>
      if byte < 0x80 ∨ 0xC0 ≤ byte then .error .malformedTag
      else do
        let (bytes, rest) ← continuationBytes n rest
        .ok (byte.toUInt8 :: bytes, rest)

def percentBytes (s : List Char) : Except Fault (Bytes × List Char) :=
  match percentByte? s with
  | none => .error .malformedTag
  | some (byte, rest) =>
    match leadWidth? byte with
    | none => .error .malformedTag
    | some width => do
      let (bytes, rest) ← continuationBytes (width - 1) rest
      .ok (byte.toUInt8 :: bytes, rest)

def uriWithin (verbatim : Bool) (bound : Nat) (bytes : Bytes) : Step Bytes := fun c =>
  match bound with
  | 0 => .ok (bytes, c)
  | bound + 1 =>
    match c.rest with
    | [] => .ok (bytes, c)
    | d :: _ =>
      if d = '%' then do
        let (more, rest) ← percentBytes c.rest
        uriWithin verbatim bound (bytes ++ more) (c.skip (c.rest.length - rest.length))
      else if isUriChar verbatim d then
        uriWithin verbatim bound (bytes ++ String.utf8EncodeChar d) (c.skip 1)
      else .ok (bytes, c)

def uri (verbatim : Bool) : Step Bytes := fun c => uriWithin verbatim (c.rest.length + 1) [] c

def beforeZero (bytes : Bytes) : Bytes := bytes.takeWhile (· ≠ 0)

/-- Handle and suffix of a tag, at its exclamation mark. A verbatim tag has no handle. -/
def tagParts : Step (List Char × Bytes) := fun c => do
  if c.test 1 (· == '<') then
    let (suffix, c) ← uri true (c.skip 2)
    if suffix = [] || !c.test 0 (· == '>') then .error .malformedTag
    else .ok (([], beforeZero suffix), c.skip 1)
  else
    let (handle, c) ← tagHandle false c
    if 1 < handle.length && handle.getLast? == some '!' then
      let (suffix, c) ← uri false c
      if suffix = [] then .error .malformedTag else .ok ((handle, beforeZero suffix), c)
    else
      let (more, c) ← uri false c
      let suffix := beforeZero (bytesOf (handle.drop 1) ++ more)
      if suffix = [] then .ok (([], bytesOf ['!']), c) else .ok ((['!'], suffix), c)

/-- A tag; only a gap, or a comma inside a flow collection, may follow it. -/
def tag (inFlow : Bool) : Step (List Char × Bytes) := fun c => do
  let (parts, c) ← tagParts c
  if c.gapOrEndAt 0 || (inFlow && c.test 0 (· == ',')) then .ok (parts, c)
  else .error .malformedTag

/-! ## Directives -/

def versionNumber : Step Nat := fun c =>
  let (digits, c) := c.span Text.isDigit
  if digits = [] ∨ 9 < digits.length then .error .malformedDirective
  else .ok (Text.ofDigits digits, c)

def versionDirective : Step Directive := fun c => do
  let (major, c) ← versionNumber (c.skipWhile isSpaceOrTab)
  if !c.test 0 (· == '.') then .error .malformedDirective
  else
    let (minor, c) ← versionNumber (c.skip 1)
    .ok (.version major minor, c)

def tagDirective : Step Directive := fun c => do
  let (handle, c) ← tagHandle true (c.skipWhile isSpaceOrTab)
  if !c.test 0 isSpaceOrTab then .error .malformedDirective
  else
    let (head, c) ← uri true (c.skipWhile isSpaceOrTab)
    if head = [] || !c.gapOrEndAt 0 then .error .malformedDirective
    else .ok (.tag handle (beforeZero head), c)

def directive : Step Directive := fun c => do
  let (name, c) := c.span isNameChar
  if name = [] || !c.gapOrEndAt 0 then .error .malformedDirective
  else if name = ['Y', 'A', 'M', 'L'] then versionDirective c
  else if name = ['T', 'A', 'G'] then tagDirective c
  else .error .malformedDirective

end Reshape.Yaml
