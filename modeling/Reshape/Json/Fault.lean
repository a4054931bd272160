import Reshape.Text.Numeral
import Reshape.Text.Utf8

/-!
# Faults of JSON text

A fault has a cause and a place. Columns count bytes of the UTF-8 encoding.
-/

namespace Reshape.Json

inductive Cause where
  | unfinishedList
  | unfinishedObject
  | unfinishedString
  | unfinishedValue
  | expectedColon
  | expectedCommaOrBracket
  | expectedCommaOrBrace
  | expectedIdentifier
  | expectedValue
  | invalidEscape
  | invalidNumber
  | numberOutOfRange
  | controlCharacter
  | keyMustBeString
  | loneSurrogate
  | trailingComma
  | trailingCharacters
  | unfinishedSurrogate
  | tooDeep
  deriving DecidableEq

def Cause.message : Cause → String
  | unfinishedList => "EOF while parsing a list"
  | unfinishedObject => "EOF while parsing an object"
  | unfinishedString => "EOF while parsing a string"
  | unfinishedValue => "EOF while parsing a value"
  | expectedColon => "expected `:`"
  | expectedCommaOrBracket => "expected `,` or `]`"
  | expectedCommaOrBrace => "expected `,` or `\x7d`"
  | expectedIdentifier => "expected ident"
  | expectedValue => "expected value"
  | invalidEscape => "invalid escape"
  | invalidNumber => "invalid number"
  | numberOutOfRange => "number out of range"
  | controlCharacter => "control character (\\u0000-\\u001F) found while parsing a string"
  | keyMustBeString => "key must be a string"
  | loneSurrogate => "lone leading surrogate in hex escape"
  | trailingComma => "trailing comma"
  | trailingCharacters => "trailing characters"
  | unfinishedSurrogate => "unexpected end of hex escape"
  | tooDeep => "recursion limit exceeded"

structure Fault where
  cause : Cause
  line : Nat
  column : Nat
  deriving DecidableEq

def Fault.message (f : Fault) : String :=
  f.cause.message ++ " at line " ++ String.ofList (Text.decimal f.line) ++ " column " ++
    String.ofList (Text.decimal f.column)

/-- Line and column after the first `offset` bytes; the lines passed and the column are given. -/
def advance (line column : Nat) : Nat → List Char → Nat × Nat
  | offset, [] => (line, column + offset)
  | offset, c :: rest =>
    if offset = 0 then (line, column)
    else if c = '\n' then advance (line + 1) 0 (offset - 1) rest
    else if offset ≤ c.utf8Size then (line, column + offset)
    else advance line (column + c.utf8Size) (offset - c.utf8Size) rest

def Fault.at (text : List Char) (cause : Cause) (left : Nat) : Fault :=
  let (line, column) := advance 1 0 (Text.byteCount text - left) text
  ⟨cause, line, column⟩

end Reshape.Json
