/-!
# Numerals

Digits in a base up to sixteen, and the decimal numeral of a natural number.
-/

namespace Reshape.Text

/-- The value of a digit, letters counting from ten in either case. -/
def digitValue? (base : Nat) (c : Char) : Option Nat :=
  let value? :=
    if '0' ≤ c ∧ c ≤ '9' then some (c.toNat - '0'.toNat)
    else if 'a' ≤ c ∧ c ≤ 'z' then some (c.toNat - 'a'.toNat + 10)
    else if 'A' ≤ c ∧ c ≤ 'Z' then some (c.toNat - 'A'.toNat + 10)
    else none
  value?.filter (· < base)

def isDigit (c : Char) : Bool := '0' ≤ c && c ≤ '9'

def digitValue (c : Char) : Nat := c.toNat - '0'.toNat

/-- The number that continues `start` with the given digits; none if a character is no digit. -/
def continueNumeral? (base start : Nat) : List Char → Option Nat
  | [] => some start
  | c :: rest =>
    match digitValue? base c with
    | some d => continueNumeral? base (start * base + d) rest
    | none => none

def numeral? (base : Nat) : List Char → Option Nat
  | [] => none
  | s => continueNumeral? base 0 s

def ofDigits (s : List Char) : Nat := s.foldl (fun n c => n * 10 + digitValue c) 0

def decimal (n : Nat) : List Char := Nat.toDigits 10 n

/-- The decimal numeral of an integer, with a minus sign if it is negative. -/
def signedDecimal (n : Int) : List Char :=
  if n < 0 then '-' :: decimal n.natAbs else decimal n.natAbs

def splitSign : List Char → Bool × List Char
  | '-' :: rest => (true, rest)
  | '+' :: rest => (false, rest)
  | s => (false, s)

def lower (s : List Char) : List Char := s.map Char.toLower

end Reshape.Text
