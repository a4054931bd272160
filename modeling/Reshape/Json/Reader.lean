import Reshape.Json.Fault
import Reshape.Value.Basic

/-!
# Reading JSON

The reader works on what is left of the text. A failure records how many bytes were left when it
was noticed: either before the offending character (`failHere`) or one byte after its beginning
(`failNext`).

Binary64 numbers are read by a short method. The digits form an integer as long as it fits 64 bits;
further digits of the whole part only raise the exponent, and further digits of the fraction are
dropped. The integer is then scaled by a power of ten, with one rounding for each step.
-/

namespace Reshape.Json

open Text (byteCount isDigit digitValue)

structure Failure where
  cause : Cause
  left : Nat

/-- A step reads a beginning of the text and gives the rest. -/
abbrev Step (α : Type) := List Char → Except Failure (α × List Char)

def failHere (cause : Cause) (rest : List Char) : Except Failure α :=
  .error ⟨cause, byteCount rest⟩

def failNext (cause : Cause) (rest : List Char) : Except Failure α :=
  .error ⟨cause, byteCount rest - 1⟩

def isSpace (c : Char) : Bool := c == ' ' || c == '\n' || c == '\t' || c == '\r'

def skipSpace (s : List Char) : List Char := s.dropWhile isSpace

def readWord (value : Value) : List Char → Step Value
  | [], s => .ok (value, s)
  | _ :: _, [] => failHere .unfinishedValue []
  | w :: word, c :: rest =>
    if c = w then readWord value word rest else failNext .expectedIdentifier (c :: rest)

/-! ## Numbers -/

def fits (n : Nat) (c : Char) : Bool := n * 10 + digitValue c < 2 ^ 64

/-- Digits put behind `n` for as long as they fit, with their number and the rest. -/
def gather (n count : Nat) : List Char → Nat × Nat × List Char
  | [] => (n, count, [])
  | c :: rest =>
    if isDigit c && fits n c then gather (n * 10 + digitValue c) (count + 1) rest
    else (n, count, c :: rest)

def startsWithDigit : List Char → Bool
  | c :: _ => isDigit c
  | [] => false

def powerOfTen (k : Nat) : Binary64 := .ofNat (10 ^ k)

/-- `x` divided by `10 ^ k`, by `10 ^ 308` at a time. -/
def scaleDown (x : Binary64) (k : Nat) : Binary64 :=
  if k ≤ 308 then x.div (powerOfTen k)
  else if x.isZero then x
  else scaleDown (x.div (powerOfTen 308)) (k - 308)
termination_by k

def scale (significand : Nat) (exponent : Int) : Binary64 :=
  let x := Binary64.ofNat significand
  if exponent < 0 then scaleDown x exponent.natAbs
  else if exponent ≤ 308 then x.mul (powerOfTen exponent.natAbs)
  else if x.isZero then x
  else .infinity

def readDouble (negative : Bool) (significand : Nat) (exponent : Int) : Step Value := fun s =>
  let x := scale significand exponent
  if x.isFinite then .ok (.number (.double ⟨negative, x.magnitude⟩), s)
  else failHere .numberOutOfRange s

/-- The digits of an exponent, as far as it fits 31 bits; then the rest of the text. -/
def gatherExponent (n : Nat) : List Char → Except (List Char) (Nat × List Char)
  | [] => .ok (n, [])
  | c :: rest =>
    if isDigit c then
      if n * 10 + digitValue c < 2 ^ 31 then gatherExponent (n * 10 + digitValue c) rest
      else .error rest
    else .ok (n, c :: rest)

def readExponent (negative : Bool) (significand : Nat) (start : Int) : Step Value := fun s =>
  let (down, s) :=
    match s with
    | '+' :: rest => (false, rest)
    | '-' :: rest => (true, rest)
    | s => (false, s)
  match s with
  | [] => failHere .unfinishedValue []
  | c :: rest =>
    if !isDigit c then failNext .invalidNumber (c :: rest)
    else match gatherExponent (digitValue c) rest with
      | .ok (n, rest) =>
        readDouble negative significand (if down then start - n else start + n) rest
      | .error rest =>
        if significand ≠ 0 ∧ !down then failHere .numberOutOfRange rest
        else .ok (.number (.double ⟨negative, 0⟩), rest.dropWhile isDigit)

/-- What may follow the digits of a number that is not an integer. -/
def readTail (negative : Bool) (significand : Nat) (exponent : Int) : Step Value
  | 'e' :: rest => readExponent negative significand exponent rest
  | 'E' :: rest => readExponent negative significand exponent rest
  | s => readDouble negative significand exponent s

def readFraction (negative : Bool) (significand : Nat) (exponent : Int) : Step Value := fun s =>
  let (n, count, rest) := gather significand 0 s
  if startsWithDigit rest then readTail negative n (exponent - count) (rest.dropWhile isDigit)
  else if count = 0 then
    match rest with
    | [] => failNext .unfinishedValue []
    | rest => failNext .invalidNumber rest
  else readTail negative n (exponent - count) rest

/-- A negative number is an integer if it fits 64 bits with sign; minus zero is not one. -/
def integerValue (negative : Bool) (n : Nat) : Value :=
  if !negative then .number (.integer n)
  else if n = 0 ∨ 2 ^ 63 < n then .number (.double ⟨true, (Binary64.ofNat n).magnitude⟩)
  else .number (.integer (-n))

def readRemainder (negative : Bool) (n : Nat) : Step Value
  | '.' :: rest => readFraction negative n 0 rest
  | 'e' :: rest => readExponent negative n 0 rest
  | 'E' :: rest => readExponent negative n 0 rest
  | s => .ok (integerValue negative n, s)

def readNumber (negative : Bool) : Step Value
  | [] => failHere .unfinishedValue []
  | '0' :: rest =>
    if startsWithDigit rest then failNext .invalidNumber rest else readRemainder negative 0 rest
  | c :: rest =>
    if !isDigit c then failNext .invalidNumber (c :: rest)
    else
      let (n, _, rest) := gather (digitValue c) 0 rest
      if startsWithDigit rest then
        let exponent := (rest.takeWhile isDigit).length
        match rest.dropWhile isDigit with
        | '.' :: rest => readFraction negative n exponent rest
        | rest => readTail negative n exponent rest
      else readRemainder negative n rest

/-! ## Strings -/

def hexValue (a b c d : Char) : Option Nat := Text.numeral? 16 [a, b, c, d]

def readHex : Step Nat
  | a :: b :: c :: d :: rest =>
    match hexValue a b c d with
    | some n => .ok (n, rest)
    | none => .error ⟨.invalidEscape, byteCount (a :: b :: c :: d :: rest) - 4⟩
  | s => if byteCount s < 4 then .error ⟨.unfinishedString, 0⟩
    else .error ⟨.invalidEscape, byteCount s - 4⟩

/-- The second half of a surrogate pair, whose first half is `high`. -/
def readLowSurrogate (high : Nat) : Step Char
  | [] => failHere .unfinishedString []
  | '\\' :: 'u' :: s => do
    let (low, rest) ← readHex s
    if low < 0xDC00 ∨ 0xDFFF < low then failHere .loneSurrogate rest
    else .ok (Char.ofNat ((high - 0xD800) * 0x400 + (low - 0xDC00) + 0x10000), rest)
  | ['\\'] => failHere .unfinishedString []
  | '\\' :: s => failNext .unfinishedSurrogate s
  | s => failNext .unfinishedSurrogate s

def readUnicodeEscape : Step Char := fun s => do
  let (n, rest) ← readHex s
  if 0xDC00 ≤ n ∧ n ≤ 0xDFFF then failHere .loneSurrogate rest
  else if n < 0xD800 ∨ 0xDBFF < n then .ok (Char.ofNat n, rest)
  else readLowSurrogate n rest

def escapeLetters : List (Char × Char) :=
  [('"', '"'), ('\\', '\\'), ('/', '/'), ('b', '\x08'), ('f', '\x0c'), ('n', '\n'), ('r', '\r'),
    ('t', '\t')]

def readEscape : Step Char
  | [] => failHere .unfinishedString []
  | 'u' :: rest => readUnicodeEscape rest
  | c :: rest =>
    match escapeLetters.lookup c with
    | some e => .ok (e, rest)
    | none => failNext .invalidEscape (c :: rest)

/-- The rest of a string, in at most `bound` characters. -/
def readStringWithin : Nat → Step (List Char)
  | 0, s => failHere .unfinishedString s
  | _ + 1, [] => failHere .unfinishedString []
  | _ + 1, '"' :: rest => .ok ([], rest)
  | bound + 1, '\\' :: rest => do
    let (c, rest) ← readEscape rest
    let (text, rest) ← readStringWithin bound rest
    .ok (c :: text, rest)
  | bound + 1, c :: rest =>
    if c < ' ' then failHere .controlCharacter rest
    else do
      let (text, rest) ← readStringWithin bound rest
      .ok (c :: text, rest)

def readString : Step String := fun s => do
  let (text, rest) ← readStringWithin (s.length + 1) s
  .ok (String.ofList text, rest)

/-! ## Containers -/

/-- The items after the first one, in at most `bound` rounds. -/
def readItems (element : Step Value) : Nat → Step (List Value)
  | 0, s => failNext .unfinishedList s
  | bound + 1, s =>
    match skipSpace s with
    | [] => failNext .unfinishedList []
    | ']' :: rest => .ok ([], rest)
    | ',' :: rest =>
      match skipSpace rest with
      | [] => failNext .unfinishedValue []
      | ']' :: rest => failNext .trailingComma (']' :: rest)
      | rest => do
        let (v, rest) ← element rest
        let (vs, rest) ← readItems element bound rest
        .ok (v :: vs, rest)
    | rest => failNext .expectedCommaOrBracket rest

def readArray (element : Step Value) : Step Value := fun s =>
  match skipSpace s with
  | [] => failNext .unfinishedList []
  | ']' :: rest => .ok (.array [], rest)
  | rest => do
    let (v, rest) ← element rest
    let (vs, rest) ← readItems element (rest.length + 1) rest
    .ok (.array (v :: vs), rest)

def readField (element : Step Value) : Step (String × Value) := fun s => do
  let (key, rest) ← readString s
  match skipSpace rest with
  | [] => failNext .unfinishedObject []
  | ':' :: rest => do
    let (v, rest) ← element rest
    .ok ((key, v), rest)
  | rest => failNext .expectedColon rest

def readFields (element : Step Value) : Nat → Step (List (String × Value))
  | 0, s => failNext .unfinishedObject s
  | bound + 1, s =>
    match skipSpace s with
    | [] => failNext .unfinishedObject []
    | '\x7d' :: rest => .ok ([], rest)
    | ',' :: rest =>
      match skipSpace rest with
      | [] => failNext .unfinishedValue []
      | '\x7d' :: rest => failNext .trailingComma ('\x7d' :: rest)
      | '"' :: rest => do
        let (field, rest) ← readField element rest
        let (fields, rest) ← readFields element bound rest
        .ok (field :: fields, rest)
      | rest => failNext .keyMustBeString rest
    | rest => failNext .expectedCommaOrBrace rest

/-- An object, after its opening brace. A key that comes again takes the last value. -/
def readObject (element : Step Value) : Step Value := fun s =>
  match skipSpace s with
  | [] => failNext .unfinishedObject []
  | '\x7d' :: rest => .ok (.object [], rest)
  | '"' :: rest => do
    let (field, rest) ← readField element rest
    let (fields, rest) ← readFields element (rest.length + 1) rest
    .ok (.object (Value.fieldsOf (field :: fields)), rest)
  | rest => failNext .keyMustBeString rest

def readWith (array object : Step Value) : Step Value := fun s =>
  match skipSpace s with
  | [] => failNext .unfinishedValue []
  | 'n' :: rest => readWord .null ['u', 'l', 'l'] rest
  | 't' :: rest => readWord (.bool true) ['r', 'u', 'e'] rest
  | 'f' :: rest => readWord (.bool false) ['a', 'l', 's', 'e'] rest
  | '-' :: rest => readNumber true rest
  | '"' :: rest => do
    let (text, rest) ← readString rest
    .ok (.string text, rest)
  | '[' :: rest => array rest
  | '\x7b' :: rest => object rest
  | c :: rest =>
    if isDigit c then readNumber false (c :: rest) else failNext .expectedValue (c :: rest)

def readValue : Nat → Step Value
  | 0 => readWith (failHere .tooDeep) (failHere .tooDeep)
  | depth + 1 => readWith (readArray (readValue depth)) (readObject (readValue depth))

def depthLimit : Nat := 127

/-- A whole text: one value and nothing after it but space. -/
def readText (s : List Char) : Except Failure Value := do
  let (v, rest) ← readValue depthLimit s
  match skipSpace rest with
  | [] => .ok v
  | rest => failNext .trailingCharacters rest

def read (text : String) : Except Fault Value :=
  match readText text.toList with
  | .ok v => .ok v
  | .error failure => .error (.at text.toList failure.cause failure.left)

end Reshape.Json
