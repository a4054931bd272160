import Reshape.Yaml.Property
import Reshape.Yaml.Text

/-!
# YAML tokens

Indentation becomes block tokens. A key needs no indicator in front of it: where a node begins that
may be a key, its place is remembered, and a colon that follows soon enough on the same line puts
the key token there afterwards.
-/

namespace Reshape.Yaml

inductive Token where
  | directive (d : Directive)
  | documentStart
  | documentEnd
  | blockSequenceStart
  | blockMappingStart
  | blockEnd
  | flowSequenceStart
  | flowSequenceEnd
  | flowMappingStart
  | flowMappingEnd
  | blockEntry
  | flowEntry
  | key
  | value
  | reference (name : List Char)
  | anchor (name : List Char)
  | tag (handle : List Char) (suffix : Bytes)
  | scalar (text : List Char) (plain : Bool)
  deriving DecidableEq

/-- The place of a node that may turn out to be a key, with the number of tokens before it. -/
structure PossibleKey where
  required : Bool
  tokensBefore : Nat
  offset : Nat
  line : Nat
  column : Nat

/--
The tokens so far, the newest first; the indentation of the current block and of those around it,
-1 being no block; and the possible keys of the innermost flow collection and of those around it.
-/
structure Scanner where
  cursor : Cursor
  tokens : List Token
  indent : Int
  outerIndents : List Int
  keyAllowed : Bool
  possibleKey : Option PossibleKey
  outerKeys : List (Option PossibleKey)

namespace Scanner

def start (text : List Char) : Scanner := ⟨.ofText text, [], -1, [], true, none, []⟩

def inFlow (st : Scanner) : Bool := !st.outerKeys.isEmpty

def emit (st : Scanner) (token : Token) : Scanner := { st with tokens := token :: st.tokens }

def emitAt (st : Scanner) (before : Nat) (token : Token) : Scanner :=
  let newer := st.tokens.length - before
  { st with tokens := st.tokens.take newer ++ token :: st.tokens.drop newer }

/--
Passes the gap and the comments before a token. A byte order mark may begin a line, and tabs may
not stand where a key could.
-/
def skipToToken (bound : Nat) (st : Scanner) : Scanner :=
  match bound with
  | 0 => st
  | bound + 1 =>
    let c := st.cursor
    let c := if c.column = 0 ∧ c.test 0 (· == '\ufeff') then c.skip 1 else c
    let tabs := st.inFlow || !st.keyAllowed
    let c := c.skipWhile fun d => d == ' ' || (tabs && d == '\t')
    let c := if c.test 0 (· == '#') then c.skipWhile (!isBreak ·) else c
    if c.test 0 isBreak then
      skipToToken bound
        { st with cursor := c.lineBreak.2, keyAllowed := st.keyAllowed || !st.inFlow }
    else { st with cursor := c }

/-- A possible key ends with its line, and after 1024 bytes; a required one must not. -/
def expire (c : Cursor) : Option PossibleKey → Except Fault (Option PossibleKey)
  | none => .ok none
  | some k =>
    if k.line < c.line ∨ k.offset + 1024 < c.offset then
      if k.required then .error .missingColon else .ok none
    else .ok (some k)

def expireKeys (st : Scanner) : Except Fault Scanner := do
  let possibleKey ← expire st.cursor st.possibleKey
  let outerKeys ← st.outerKeys.mapM (expire st.cursor)
  .ok { st with possibleKey, outerKeys }

def removeKey (st : Scanner) : Except Fault Scanner :=
  match st.possibleKey with
  | some k => if k.required then .error .missingColon else .ok { st with possibleKey := none }
  | none => .ok st

/-- Remembers that a key may begin here. It is required where a block mapping goes on. -/
def saveKey (st : Scanner) : Except Fault Scanner := do
  if !st.keyAllowed then .ok st
  else
    let st ← st.removeKey
    let c := st.cursor
    let required := !st.inFlow && st.indent == (c.column : Int)
    .ok { st with possibleKey := some ⟨required, st.tokens.length, c.offset, c.line, c.column⟩ }

/-- Begins a block at a deeper column, with its token behind the first `before` tokens. -/
def beginBlock (st : Scanner) (column before : Nat) (token : Token) : Scanner :=
  if st.inFlow || decide ((column : Int) ≤ st.indent) then st
  else
    { st.emitAt before token with indent := column, outerIndents := st.indent :: st.outerIndents }

def endBlocks (column : Int) (st : Scanner) : Scanner :=
  if st.inFlow then st
  else
    let deeper := (st.indent :: st.outerIndents).takeWhile (decide <| column < ·)
    match (st.indent :: st.outerIndents).drop deeper.length with
    | indent :: outerIndents =>
      { st with
        tokens := List.replicate deeper.length .blockEnd ++ st.tokens
        indent := indent
        outerIndents := outerIndents }
    | [] => st

/-! ## Tokens -/

def endDocument (st : Scanner) : Except Fault Scanner := do
  let st ← (endBlocks (-1) st).removeKey
  .ok { st with keyAllowed := false }

def scanDirective (st : Scanner) : Except Fault Scanner := do
  let st ← st.endDocument
  let (d, c) ← directive (st.cursor.skip 1)
  let ((), c) ← restOfLine .malformedDirective c
  .ok { st.emit (.directive d) with cursor := c }

def scanDocumentMark (token : Token) (st : Scanner) : Except Fault Scanner := do
  let st ← st.endDocument
  .ok { st.emit token with cursor := st.cursor.skip 3 }

def scanFlowStart (token : Token) (st : Scanner) : Except Fault Scanner := do
  let st ← st.saveKey
  .ok { st.emit token with
    cursor := st.cursor.skip 1
    keyAllowed := true
    possibleKey := none
    outerKeys := st.possibleKey :: st.outerKeys }

def scanFlowEnd (token : Token) (st : Scanner) : Except Fault Scanner := do
  let st ← st.removeKey
  .ok { st.emit token with
    cursor := st.cursor.skip 1
    keyAllowed := false
    possibleKey := st.outerKeys.head?.getD none
    outerKeys := st.outerKeys.tail }

def scanFlowEntry (st : Scanner) : Except Fault Scanner := do
  let st ← st.removeKey
  .ok { st.emit .flowEntry with cursor := st.cursor.skip 1, keyAllowed := true }

def scanBlockEntry (st : Scanner) : Except Fault Scanner := do
  if !st.inFlow && !st.keyAllowed then .error .entryNotAllowed
  else
    let st ← (st.beginBlock st.cursor.column st.tokens.length .blockSequenceStart).removeKey
    .ok { st.emit .blockEntry with cursor := st.cursor.skip 1, keyAllowed := true }

def scanKey (st : Scanner) : Except Fault Scanner := do
  if !st.inFlow && !st.keyAllowed then .error .keyNotAllowed
  else
    let st ← (st.beginBlock st.cursor.column st.tokens.length .blockMappingStart).removeKey
    .ok { st.emit .key with cursor := st.cursor.skip 1, keyAllowed := !st.inFlow }

/-- A colon makes a key of the possible key before it; without one the key is empty. -/
def scanValue (st : Scanner) : Except Fault Scanner :=
  match st.possibleKey with
  | some k =>
    let st := (st.emitAt k.tokensBefore .key).beginBlock k.column k.tokensBefore .blockMappingStart
    .ok { st.emit .value with
      cursor := st.cursor.skip 1
      keyAllowed := false
      possibleKey := none }
  | none =>
    if !st.inFlow && !st.keyAllowed then .error .valueNotAllowed
    else
      let st := st.beginBlock st.cursor.column st.tokens.length .blockMappingStart
      .ok { st.emit .value with cursor := st.cursor.skip 1, keyAllowed := !st.inFlow }

def scanNode (read : Step Token) (st : Scanner) : Except Fault Scanner := do
  let st ← st.saveKey
  let (token, c) ← read st.cursor
  .ok { st.emit token with cursor := c, keyAllowed := false }

def scanAnchor (make : List Char → Token) : Scanner → Except Fault Scanner :=
  scanNode fun c => do
    let (name, c) ← anchorName (c.skip 1)
    .ok (make name, c)

def scanTag (st : Scanner) : Except Fault Scanner :=
  scanNode (fun c => do
    let ((handle, suffix), c) ← tag st.inFlow c
    .ok (.tag handle suffix, c)) st

def scanQuoted (single : Bool) : Scanner → Except Fault Scanner :=
  scanNode fun c => do
    let (text, c) ← quotedScalar single c
    .ok (.scalar text false, c)

/-- A block scalar is never a key. -/
def scanBlockScalar (literal : Bool) (st : Scanner) : Except Fault Scanner := do
  let st ← st.removeKey
  let (text, c) ← blockScalar literal st.indent st.cursor
  .ok { st.emit (.scalar text false) with cursor := c, keyAllowed := true }

/-- After a plain scalar that ended behind a line break a key may begin. -/
def scanPlain (st : Scanner) : Except Fault Scanner := do
  let st ← st.saveKey
  let ((text, broken), c) ← plainScalar st.inFlow (st.indent + 1) st.cursor
  .ok { st.emit (.scalar text true) with cursor := c, keyAllowed := broken }

def isIndicator (c : Char) : Bool :=
  ['-', '?', ':', ',', '[', ']', '\x7b', '\x7d', '#', '&', '*', '!', '|', '>', '\'', '"', '%', '@',
    '\x60'].contains c

/-- A plain scalar begins here; some indicators begin one if no gap follows. -/
def startsPlain (st : Scanner) (d : Char) : Bool :=
  let c := st.cursor
  !(isGap d || isIndicator d) ||
    (d == '-' && !c.test 1 isSpaceOrTab) ||
    (!st.inFlow && (d == '?' || d == ':') && !c.gapOrEndAt 1)

def scanToken (st : Scanner) (d : Char) : Except Fault Scanner :=
  let c := st.cursor
  let loose := st.inFlow || c.gapOrEndAt 1
  if c.column = 0 ∧ d = '%' then st.scanDirective
  else if c.atDocumentMark then
    scanDocumentMark (if d = '-' then .documentStart else .documentEnd) st
  else if d = '[' then scanFlowStart .flowSequenceStart st
  else if d = '\x7b' then scanFlowStart .flowMappingStart st
  else if d = ']' then scanFlowEnd .flowSequenceEnd st
  else if d = '\x7d' then scanFlowEnd .flowMappingEnd st
  else if d = ',' then st.scanFlowEntry
  else if d = '-' ∧ c.gapOrEndAt 1 then st.scanBlockEntry
  else if d = '?' ∧ loose then st.scanKey
  else if d = ':' ∧ loose then st.scanValue
  else if d = '*' then scanAnchor .reference st
  else if d = '&' then scanAnchor .anchor st
  else if d = '!' then st.scanTag
  else if d = '|' ∧ !st.inFlow then scanBlockScalar true st
  else if d = '>' ∧ !st.inFlow then scanBlockScalar false st
  else if d = '\'' then scanQuoted true st
  else if d = '"' then scanQuoted false st
  else if st.startsPlain d then st.scanPlain
  else .error .unexpectedCharacter

def scanAll (bound : Nat) (st : Scanner) : Except Fault (List Token) := do
  match bound with
  | 0 => .error .unexpectedCharacter
  | bound + 1 =>
    let st ← (skipToToken (st.cursor.rest.length + 1) st).expireKeys
    let st := endBlocks st.cursor.column st
    match st.cursor.rest with
    | [] => do .ok (← st.endDocument).tokens.reverse
    | d :: _ => scanAll bound (← st.scanToken d)

end Scanner

namespace Token

def ofText (text : String) : Except Fault (List Token) :=
  let s := text.toList
  if s.all isAllowed then Scanner.scanAll (s.length + 1) (.start s) else .error .forbiddenCharacter

end Token

end Reshape.Yaml
