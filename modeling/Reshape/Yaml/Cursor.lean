import Reshape.Text.Utf8
import Reshape.Yaml.Fault

/-!
# Cursors

A cursor is a place in a YAML text: what is left of it, and how many bytes, lines and columns have
been passed. Columns count characters, also the byte order mark.
-/

namespace Reshape.Yaml

/-- Carriage return, line feed, next line, line separator and paragraph separator. -/
def isBreak (c : Char) : Bool :=
  c == '\n' || c == '\r' || c == '\u0085' || c == '\u2028' || c == '\u2029'

def isSpaceOrTab (c : Char) : Bool := c == ' ' || c == '\t'

def isGap (c : Char) : Bool := isSpaceOrTab c || isBreak c

def isNameChar (c : Char) : Bool := c.isAlphanum || c == '_' || c == '-'

def isAllowed (c : Char) : Bool :=
  let n := c.toNat
  n == 0x09 || n == 0x0A || n == 0x0D || (0x20 ≤ n && n ≤ 0x7E) || n == 0x85 ||
    (0xA0 ≤ n && n ≤ 0xD7FF) || (0xE000 ≤ n && n ≤ 0xFFFD) || 0x10000 ≤ n

structure Cursor where
  rest : List Char
  offset : Nat
  line : Nat
  column : Nat

namespace Cursor

def ofText (s : List Char) : Cursor := ⟨s, 0, 0, 0⟩

def at? (c : Cursor) (n : Nat) : Option Char := c.rest[n]?

def startsWith (c : Cursor) (s : List Char) : Bool := s.isPrefixOf c.rest

def test (c : Cursor) (n : Nat) (p : Char → Bool) : Bool := (c.at? n).any p

/-- The text ends at the `n`-th character from here, or has a gap there. -/
def gapOrEndAt (c : Cursor) (n : Nat) : Bool := (c.at? n).all isGap

def breakOrEndAt (c : Cursor) (n : Nat) : Bool := (c.at? n).all isBreak

def skip (c : Cursor) (n : Nat) : Cursor :=
  ⟨c.rest.drop n, c.offset + Text.byteCount (c.rest.take n), c.line, c.column + n⟩

def span (c : Cursor) (p : Char → Bool) : List Char × Cursor :=
  let run := c.rest.takeWhile p
  (run, c.skip run.length)

def skipWhile (c : Cursor) (p : Char → Bool) : Cursor := (c.span p).2

/--
The line break here and the place after it; nothing if there is none. Breaks are read as line
feeds, except for the line and paragraph separators.
-/
def lineBreak (c : Cursor) : List Char × Cursor :=
  match c.rest with
  | '\r' :: '\n' :: rest => (['\n'], ⟨rest, c.offset + 2, c.line + 1, 0⟩)
  | b :: rest =>
    if isBreak b then
      let text := if b = '\u2028' ∨ b = '\u2029' then b else '\n'
      ([text], ⟨rest, c.offset + b.utf8Size, c.line + 1, 0⟩)
    else ([], c)
  | [] => ([], c)

def atDocumentMark (c : Cursor) : Bool :=
  c.column == 0 && (c.startsWith ['-', '-', '-'] || c.startsWith ['.', '.', '.']) && c.gapOrEndAt 3

end Cursor

abbrev Step (α : Type) := Cursor → Except Fault (α × Cursor)

end Reshape.Yaml
