import Reshape.Binary64.Decimal
import Reshape.Value.Basic

/-!
# Plain scalars

The types of scalars that are written without quotes: null, booleans, integers in four bases,
binary64 numbers, and strings for all else.
-/

namespace Reshape.Yaml

inductive Plain where
  | null
  | bool (b : Bool)
  | number (n : Number)
  | string (s : List Char)
  deriving DecidableEq

namespace Plain

def isNull (s : List Char) : Bool :=
  ["null", "Null", "NULL", "~"].any (·.toList == s)

def bool? (s : List Char) : Option Bool :=
  if ["true", "True", "TRUE"].any (·.toList == s) then some true
  else if ["false", "False", "FALSE"].any (·.toList == s) then some false
  else none

def startsWithSign : List Char → Bool
  | c :: _ => c == '+' || c == '-'
  | [] => false

/-- Digits with a zero in front, after an optional sign: these are no number. -/
def isPaddedNumeral (s : List Char) : Bool :=
  let body := if startsWithSign s then s.drop 1 else s
  1 < body.length && body.head? == some '0' && body.all Text.isDigit

def marked? (s : List Char) : Option Nat :=
  match s with
  | '0' :: 'x' :: digits => Text.numeral? 16 digits
  | '0' :: 'o' :: digits => Text.numeral? 8 digits
  | '0' :: 'b' :: digits => Text.numeral? 2 digits
  | _ => none

def integer? (s : List Char) : Option Int :=
  let (negative, body) := Text.splitSign s
  match marked? body with
  | some n => some (if negative then -n else n)
  | none =>
    if isPaddedNumeral s then none
    else (Text.numeral? 10 body).map fun n => if negative then -(n : Int) else n

/-- An integer for numbers up to 64 bits; up to 128 bits it is a fault, and beyond no integer. -/
inductive Size where
  | fits (n : Int)
  | tooLarge
  | none

def size (s : List Char) : Size :=
  match integer? s with
  | some n =>
    if -2 ^ 63 ≤ n ∧ n < 2 ^ 64 then .fits n
    else if -2 ^ 127 ≤ n ∧ n < 2 ^ 128 then .tooLarge
    else .none
  | none => .none

def double? (s : List Char) : Option Binary64 :=
  let body := if s.head? = some '+' then s.drop 1 else s
  if s.head? = some '+' ∧ startsWithSign body then none
  else if [".inf", ".Inf", ".INF"].any (·.toList == body) then some .infinity
  else if ["-.inf", "-.Inf", "-.INF"].any (·.toList == s) then some Binary64.infinity.neg
  else if [".nan", ".NaN", ".NAN"].any (·.toList == s) then some .nan
  else (Text.binary64? body).filter (·.isFinite)

/-- The value of an untagged plain scalar, none if it is an integer out of range. -/
def resolve? (s : List Char) : Option Plain :=
  if s = [] || isNull s then some .null
  else match bool? s with
    | some b => some (.bool b)
    | none =>
      match size s with
      | .fits n => some (.number (.integer n))
      | .tooLarge => none
      | .none =>
        if isPaddedNumeral s then some (.string s)
        else match double? s with
          | some x => some (.number (.double x))
          | none => some (.string s)

end Plain

end Reshape.Yaml
