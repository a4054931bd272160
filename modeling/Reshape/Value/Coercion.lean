import Reshape.Binary64.Decimal
import Reshape.Binary64.Shortest
import Reshape.Text.Blank
import Reshape.Value.Basic

/-!
# Loose conversions

The template language converts between types as it goes: anything has a text, which is what
concatenation joins and what a computed key becomes, and many values count as a number or as an
index.
-/

namespace Reshape

namespace Number

/-- The integer `x` if it is whole and fits 64 bits with sign, `x` itself if it is finite. -/
def ofBinary64? (x : Binary64) : Option Number :=
  if x.isWhole && decide (-2 ^ 63 ≤ x.truncate) && decide (x.truncate < 2 ^ 63) then
    some (.integer x.truncate)
  else if x.isFinite then some (.double x)
  else none

def saturate (n : Int) : Int := max (-2 ^ 63) (min (2 ^ 63 - 1) n)

/--
The text of a number. Integers are their decimal numeral; a whole binary64 number below `10 ^ 21`
is written as the nearest 64-bit integer, all others in positional notation.
-/
def text : Number → List Char
  | .integer n => Text.signedDecimal n
  | .double x =>
    if x.isWhole && decide (x.truncate.natAbs < 10 ^ 21) then
      Text.signedDecimal (saturate x.truncate)
    else
      let body := (x.shortest .up).positional []
      if x.negative then '-' :: body else body

def signed64? : Number → Option Int
  | .integer n => if n < 2 ^ 63 then some n else none
  | .double _ => none

def unsigned64? : Number → Option Nat
  | .integer n => if 0 ≤ n then some n.toNat else none
  | .double _ => none

end Number

namespace Value

/-- The number for a binary64 number, null if it is infinite or not a number. -/
def ofBinary64 (x : Binary64) : Value :=
  match Number.ofBinary64? x with
  | some n => number n
  | none => null

mutual

/-- The text of a value: an array is the texts of its items between commas, null being empty. -/
def text : Value → String
  | null => "null"
  | bool true => "true"
  | bool false => "false"
  | number n => String.ofList n.text
  | string s => s
  | array items => ",".intercalate (itemTexts items)
  | object _ => "[object Object]"

def itemTexts : List Value → List String
  | [] => []
  | null :: rest => "" :: itemTexts rest
  | v :: rest => text v :: itemTexts rest

end

def toBinary64 : Value → Binary64
  | null => .zero
  | bool b => .ofNat b.toNat
  | number n => n.toBinary64
  | string s =>
    let trimmed := Text.trim s.toList
    if trimmed = [] then .zero else (Text.binary64? trimmed).getD .nan
  | array _ => .nan
  | object _ => .nan

/-- The number that a key denotes as an array index: a number, or a string that is a numeral. -/
def index? : Value → Option Binary64
  | number n => some n.toBinary64
  | string s =>
    let trimmed := Text.trim s.toList
    if trimmed = [] then none else (Text.binary64? trimmed).filter (·.isFinite)
  | _ => none

/-- Strings, arrays and objects are added as texts. -/
def isTextual : Value → Bool
  | string _ => true
  | array _ => true
  | object _ => true
  | _ => false

def signed64? : Value → Option Int
  | number n => n.signed64?
  | _ => none

def integerSum? (a b : Value) : Option Int :=
  match a.signed64?, b.signed64? with
  | some m, some n => if -2 ^ 63 ≤ m + n ∧ m + n < 2 ^ 63 then some (m + n) else none
  | _, _ => none

/--
Texts are joined as soon as one side is textual. Two integers are added exactly if their sum fits,
all else as binary64 numbers.
-/
def add (a b : Value) : Value :=
  if a.isTextual || b.isTextual then string (a.text ++ b.text)
  else match integerSum? a b with
    | some n => number (.integer n)
    | none => ofBinary64 (a.toBinary64.add b.toBinary64)

end Value

end Reshape
