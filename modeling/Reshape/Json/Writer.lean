import Reshape.Binary64.Shortest
import Reshape.Text.Numeral
import Reshape.Value.Basic

/-!
# Writing JSON

A width of zero writes a value on one line without spaces; a positive width writes each item and
field on a line of its own, indented by that width for each level of nesting.
-/

namespace Reshape.Json

open Binary64 (Scientific)

/--
Binary64 numbers are written by their shortest decimal, a tie going to the even digit. Exponents
from -5 to 15 are written positionally, always with a fraction.
-/
def doubleText (x : Binary64) : List Char :=
  let d := x.shortest .even
  let body :=
    if -5 ≤ d.exponent ∧ d.exponent ≤ 15 then d.positional ['.', '0'] else d.withExponent
  if x.negative then '-' :: body else body

def numberText : Number → List Char
  | .integer n => Text.signedDecimal n
  | .double x => doubleText x

def hexDigit (n : Nat) : Char := Nat.digitChar n

/-- The control characters that have a letter, then all others in hexadecimal. -/
def controlText (c : Char) : List Char :=
  if c = '\x08' then ['\\', 'b']
  else if c = '\x0c' then ['\\', 'f']
  else if c = '\n' then ['\\', 'n']
  else if c = '\r' then ['\\', 'r']
  else if c = '\t' then ['\\', 't']
  else ['\\', 'u', '0', '0', hexDigit (c.toNat / 16), hexDigit (c.toNat % 16)]

def charText (c : Char) : List Char :=
  if c = '"' then ['\\', '"']
  else if c = '\\' then ['\\', '\\']
  else if c < ' ' then controlText c
  else [c]

/-- A string between quotes; only quotes, backslashes and control characters are escaped. -/
def stringText (s : String) : List Char := '"' :: s.toList.flatMap charText ++ ['"']

def lineBreak (width depth : Nat) : List Char :=
  if width = 0 then [] else '\n' :: List.replicate (width * depth) ' '

def colon (width : Nat) : List Char := if width = 0 then [':'] else [':', ' ']

mutual

def valueText (width depth : Nat) : Value → List Char
  | .null => ['n', 'u', 'l', 'l']
  | .bool true => ['t', 'r', 'u', 'e']
  | .bool false => ['f', 'a', 'l', 's', 'e']
  | .number n => numberText n
  | .string s => stringText s
  | .array [] => ['[', ']']
  | .array (v :: rest) =>
    '[' :: lineBreak width (depth + 1) ++ valueText width (depth + 1) v ++
      itemsText width (depth + 1) rest ++ lineBreak width depth ++ [']']
  | .object [] => ['\x7b', '\x7d']
  | .object ((k, v) :: rest) =>
    '\x7b' :: lineBreak width (depth + 1) ++ stringText k ++ colon width ++
      valueText width (depth + 1) v ++ fieldsText width (depth + 1) rest ++
      lineBreak width depth ++ ['\x7d']

def itemsText (width depth : Nat) : List Value → List Char
  | [] => []
  | v :: rest =>
    ',' :: lineBreak width depth ++ valueText width depth v ++ itemsText width depth rest

def fieldsText (width depth : Nat) : List (String × Value) → List Char
  | [] => []
  | (k, v) :: rest =>
    ',' :: lineBreak width depth ++ stringText k ++ colon width ++ valueText width depth v ++
      fieldsText width depth rest

end

def write (width : Nat) (v : Value) : String := String.ofList (valueText width 0 v)

end Reshape.Json
