import Reshape.Binary64.Basic
import Reshape.Text.Numeral

/-!
# Binary64 numbers from decimal text

A decimal numeral names the number nearest to its exact value, however many digits it has.
-/

namespace Reshape

namespace Binary64

/--
The number nearest to `coefficient * 10 ^ exponent`. Exponents far outside the range of the
format are settled by the number of digits alone.
-/
def ofDecimal (negative : Bool) (coefficient : Nat) (exponent : Int) : Binary64 :=
  if coefficient = 0 then ⟨negative, 0⟩
  else if 400 < exponent then ⟨negative, infinityMagnitude⟩
  else if exponent + (Text.decimal coefficient).length < -400 then ⟨negative, 0⟩
  else if exponent < 0 then ofRatio negative coefficient (10 ^ exponent.natAbs)
  else ofRatio negative (coefficient * 10 ^ exponent.natAbs) 1

end Binary64

namespace Text

def exponentPart? : List Char → Option Int
  | [] => some 0
  | c :: rest =>
    if c = 'e' ∨ c = 'E' then
      let (negative, digits) := splitSign rest
      if digits ≠ [] ∧ digits.all isDigit then
        some (if negative then -(ofDigits digits : Int) else ofDigits digits)
      else none
    else none

/--
Coefficient and exponent of an unsigned decimal numeral: digits with at most one point among or
beside them, and an optional exponent part.
-/
def decimalParts? (s : List Char) : Option (Nat × Int) :=
  let whole := s.takeWhile isDigit
  let rest := s.dropWhile isDigit
  let (fraction, rest) :=
    match rest with
    | '.' :: r => (r.takeWhile isDigit, r.dropWhile isDigit)
    | r => ([], r)
  if whole = [] ∧ fraction = [] then none
  else (exponentPart? rest).map fun e => (ofDigits (whole ++ fraction), e - fraction.length)

def binary64? (s : List Char) : Option Binary64 :=
  let (negative, body) := splitSign s
  match decimalParts? body with
  | some (coefficient, exponent) => some (.ofDecimal negative coefficient exponent)
  | none =>
    let word := String.ofList (lower body)
    if word = "inf" ∨ word = "infinity" then some ⟨negative, Binary64.infinityMagnitude⟩
    else if word = "nan" then some { Binary64.nan with negative }
    else none

end Text

end Reshape
