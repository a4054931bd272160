import Reshape.Text.Numeral
import Reshape.Yaml.Cursor

/-!
# Texts of scalars

A plain or quoted scalar may run over several lines: a gap with a single line break is read as a
space, and one with more breaks as all but the first. A block scalar keeps its lines (`|`) or folds
them (`>`).
-/

namespace Reshape.Yaml

/-- A gap inside a scalar: its spaces if it stays on a line, otherwise its line breaks. -/
structure Gap where
  broken : Bool
  spaces : List Char
  firstBreak : List Char
  laterBreaks : List Char

namespace Gap

def empty : Gap := ⟨false, [], [], []⟩

def fold (firstBreak laterBreaks : List Char) : List Char :=
  if firstBreak.head? = some '\n' then
    if laterBreaks = [] then [' '] else laterBreaks
  else firstBreak ++ laterBreaks

def text (g : Gap) : List Char := if g.broken then fold g.firstBreak g.laterBreaks else g.spaces

/-- The gap that goes on from here. Left of the column `indent` no tab may follow a break. -/
def read (indent : Int) (bound : Nat) (g : Gap) : Step Gap := fun c =>
  match bound with
  | 0 => .ok (g, c)
  | bound + 1 =>
    match c.rest with
    | [] => .ok (g, c)
    | b :: _ =>
      if isSpaceOrTab b then
        if g.broken && b == '\t' && decide ((c.column : Int) < indent) then .error .tabIndentation
        else if g.broken then read indent bound g (c.skip 1)
        else read indent bound { g with spaces := g.spaces ++ [b] } (c.skip 1)
      else if isBreak b then
        let (text, next) := c.lineBreak
        if g.broken then
          read indent bound { g with laterBreaks := g.laterBreaks ++ text } next
        else read indent bound ⟨true, [], text, g.laterBreaks⟩ next
      else .ok (g, c)

end Gap

/-! ## Plain scalars -/

def isFlowIndicator (c : Char) : Bool :=
  c == ',' || c == '[' || c == ']' || c == '\x7b' || c == '\x7d'

def plainRun (inFlow : Bool) : List Char → Except Fault (List Char)
  | [] => .ok []
  | c :: rest =>
    if isGap c then .ok []
    else if inFlow && c == ':' && rest.head?.any (fun d => isFlowIndicator d || d == '?') then
      .error .colonInFlow
    else if c == ':' && rest.head?.all isGap then .ok []
    else if inFlow && isFlowIndicator c then .ok []
    else do .ok (c :: (← plainRun inFlow rest))

/--
A plain scalar after `text` and a gap; also whether it ends behind a line break. Outside of flow
collections it ends where a line is indented less than `indent`.
-/
def plainFrom (inFlow : Bool) (indent : Int) (bound : Nat) (text : List Char) (gap : Gap) :
    Step (List Char × Bool) := fun c =>
  match bound with
  | 0 => .ok ((text, gap.broken), c)
  | bound + 1 =>
    if c.atDocumentMark || c.test 0 (· == '#') then .ok ((text, gap.broken), c)
    else do
      let run ← plainRun inFlow c.rest
      let joined := run ≠ []
      let text := if joined then text ++ gap.text ++ run else text
      let gap := if joined then Gap.empty else gap
      let c := c.skip run.length
      if !c.test 0 isGap then .ok ((text, gap.broken), c)
      else do
        let (gap, c) ← gap.read indent c.rest.length c
        if !inFlow && decide ((c.column : Int) < indent) then .ok ((text, gap.broken), c)
        else plainFrom inFlow indent bound text gap c

def plainScalar (inFlow : Bool) (indent : Int) : Step (List Char × Bool) := fun c =>
  plainFrom inFlow indent (c.rest.length + 1) [] .empty c

/-! ## Quoted scalars -/

def escapeLetters : List (Char × Char) :=
  [('0', '\x00'), ('a', '\x07'), ('b', '\x08'), ('t', '\t'), ('\t', '\t'), ('n', '\n'),
    ('v', '\x0b'), ('f', '\x0c'), ('r', '\r'), ('e', '\x1b'), (' ', ' '), ('"', '"'), ('/', '/'),
    ('\\', '\\'), ('N', '\u0085'), ('_', '\u00a0'), ('L', '\u2028'), ('P', '\u2029')]

def escapeWidth? (c : Char) : Option Nat :=
  if c = 'x' then some 2 else if c = 'u' then some 4 else if c = 'U' then some 8 else none

def escape : List Char → Except Fault (Char × Nat)
  | [] => .error .malformedEscape
  | c :: rest =>
    match escapeLetters.lookup c with
    | some e => .ok (e, 1)
    | none =>
      match escapeWidth? c with
      | none => .error .malformedEscape
      | some width =>
        match Text.numeral? 16 (rest.take width) with
        | none => .error .malformedEscape
        | some n =>
          if rest.length < width ∨ (0xD800 ≤ n ∧ n ≤ 0xDFFF) ∨ 0x10FFFF < n then
            .error .malformedEscape
          else .ok (Char.ofNat n, width + 1)

/-- The characters up to the next gap or the closing quote; also whether a break was escaped. -/
def quotedRun (single : Bool) (bound : Nat) (text : List Char) : Step (List Char × Bool) := fun c =>
  match bound with
  | 0 => .ok ((text, false), c)
  | bound + 1 =>
    match c.rest with
    | [] => .ok ((text, false), c)
    | d :: rest =>
      if isGap d then .ok ((text, false), c)
      else if single && d == '\'' && rest.head? == some '\'' then
        quotedRun single bound (text ++ ['\'']) (c.skip 2)
      else if d == (if single then '\'' else '"') then .ok ((text, false), c)
      else if !single && d == '\\' then
        if rest.head?.any isBreak then .ok ((text, true), (c.skip 1).lineBreak.2)
        else do
          let (e, width) ← escape rest
          quotedRun single bound (text ++ [e]) (c.skip (width + 1))
      else quotedRun single bound (text ++ [d]) (c.skip 1)

def quotedFrom (single : Bool) (bound : Nat) (text : List Char) : Step (List Char) := fun c =>
  match bound with
  | 0 => .error .malformedFlowScalar
  | bound + 1 =>
    if c.atDocumentMark || c.rest.isEmpty then .error .malformedFlowScalar
    else do
      let ((text, escaped), c) ← quotedRun single c.rest.length text c
      if c.test 0 (· == (if single then '\'' else '"')) then .ok (text, c.skip 1)
      else do
        let (gap, c) ← Gap.read 0 c.rest.length { Gap.empty with broken := escaped } c
        quotedFrom single bound (text ++ gap.text) c

def quotedScalar (single : Bool) : Step (List Char) := fun c =>
  quotedFrom single (c.rest.length + 1) [] (c.skip 1)

/-! ## Block scalars -/

inductive Chomping where
  | strip | clip | keep
  deriving DecidableEq

def chomping? (c : Char) : Option Chomping :=
  if c = '-' then some .strip else if c = '+' then some .keep else none

def indentIndicator : Step Nat := fun c =>
  match c.rest with
  | d :: _ =>
    if d = '0' then .error .malformedBlockScalar
    else if Text.isDigit d then .ok (Text.digitValue d, c.skip 1)
    else .ok (0, c)
  | [] => .ok (0, c)

def blockHeader : Step (Chomping × Nat) := fun c =>
  match c.rest.head?.bind chomping? with
  | some chomping => do
    let (width, c) ← indentIndicator (c.skip 1)
    .ok ((chomping, width), c)
  | none => do
    let (width, c) ← indentIndicator c
    match c.rest.head?.bind chomping? with
    | some chomping => .ok ((chomping, width), c.skip 1)
    | none => .ok ((.clip, width), c)

/--
The empty lines from here and the greatest column that their spaces reach. With `indent` zero the
indentation is still open and all spaces are passed.
-/
def blockBreaks (indent : Nat) (bound deepest : Nat) (breaks : List Char) :
    Step (List Char × Nat) := fun c =>
  match bound with
  | 0 => .ok ((breaks, deepest), c)
  | bound + 1 =>
    let run := c.rest.takeWhile (· == ' ')
    let c := c.skip (if indent = 0 then run.length else min run.length (indent - c.column))
    let deepest := max deepest c.column
    if (indent = 0 || c.column < indent) && c.test 0 (· == '\t') then .error .tabIndentation
    else if !c.test 0 isBreak then .ok ((breaks, deepest), c)
    else
      let (text, c) := c.lineBreak
      blockBreaks indent bound deepest (breaks ++ text) c

/-- The lines of a block scalar: the text, then the last line break and the breaks after it. -/
def blockLines (literal : Bool) (indent bound : Nat) (text lastBreak breaks : List Char)
    (afterBlank : Bool) : Step (List Char × List Char × List Char) := fun c =>
  match bound with
  | 0 => .ok ((text, lastBreak, breaks), c)
  | bound + 1 =>
    if c.column ≠ indent ∨ c.rest = [] then .ok ((text, lastBreak, breaks), c)
    else do
      let blank := c.test 0 isSpaceOrTab
      let joint :=
        if !literal && lastBreak.head? == some '\n' && !afterBlank && !blank then
          if breaks = [] then [' '] else breaks
        else lastBreak ++ breaks
      let (line, c) := c.span (!isBreak ·)
      let (lastBreak, c) := c.lineBreak
      let ((breaks, _), c) ← blockBreaks indent (c.rest.length + 1) 0 [] c
      blockLines literal indent bound (text ++ joint ++ line) lastBreak breaks blank c

def restOfLine (fault : Fault) : Step Unit := fun c =>
  let c := c.skipWhile isSpaceOrTab
  let c := if c.test 0 (· == '#') then c.skipWhile (!isBreak ·) else c
  if c.breakOrEndAt 0 then .ok ((), c.lineBreak.2) else .error fault

/-- A block scalar, at its indicator, inside a block that is indented by `indent`. -/
def blockScalar (literal : Bool) (indent : Int) : Step (List Char) := fun c => do
  let ((chomping, width), c) ← blockHeader (c.skip 1)
  let ((), c) ← restOfLine .malformedBlockScalar c
  let fixed := if width = 0 then 0 else (max indent 0).toNat + width
  let ((breaks, deepest), c) ← blockBreaks fixed (c.rest.length + 1) 0 [] c
  let column := if fixed = 0 then max deepest (max (indent + 1).toNat 1) else fixed
  let ((text, lastBreak, breaks), c) ←
    blockLines literal column (c.rest.length + 1) [] [] breaks false c
  match chomping with
  | .strip => .ok (text, c)
  | .clip => .ok (text ++ lastBreak, c)
  | .keep => .ok (text ++ lastBreak ++ breaks, c)

end Reshape.Yaml
