import Reshape.Binary64.Basic
import Reshape.Text.Numeral

/-!
# Shortest decimals

The shortest decimal of a finite number has the fewest digits among the decimals that round to it,
and is the nearest to it among those. The decimals with a given number of digits form a grid; if
any of them rounds to the number, one of its two neighbours on the grid does.
-/

namespace Reshape

namespace Binary64

inductive TieRule where
  | even | up
  deriving DecidableEq

/-- The value `d.ddd * 10 ^ exponent`, without trailing zeros unless it is zero. -/
structure Scientific where
  digits : List Char
  exponent : Int
  deriving DecidableEq

/--
A grid of decimals `c * 10 ^ exponent`, `c` a natural number. In halves of a unit its step is
`step / scale`.
-/
structure Grid where
  exponent : Int
  step : Nat
  scale : Nat

def Grid.ofExponent (exponent : Int) : Grid :=
  if exponent < 0 then ⟨exponent, 2 * one, 10 ^ exponent.natAbs⟩
  else ⟨exponent, 2 * one * 10 ^ exponent.natAbs, 1⟩

/-- The `c`-th point of a grid rounds to the given magnitude; ends count for an even one. -/
def Grid.reads (g : Grid) (magnitude c : Nat) : Bool :=
  let low := (unitsOf (magnitude - 1) + unitsOf magnitude) * g.scale
  let high := (unitsOf magnitude + unitsOf (magnitude + 1)) * g.scale
  let point := c * g.step
  if magnitude % 2 = 0 then low ≤ point && point ≤ high else low < point && point < high

/-- The nearest of a magnitude's two neighbours on a grid that round to it. -/
def Grid.nearest? (g : Grid) (tie : TieRule) (magnitude : Nat) : Option Nat :=
  let target := 2 * unitsOf magnitude * g.scale
  let below := target / g.step
  let above := below + 1
  match g.reads magnitude below, g.reads magnitude above with
  | false, false => none
  | true, false => some below
  | false, true => some above
  | true, true =>
    let left := target - below * g.step
    let right := above * g.step - target
    if left < right then some below
    else if right < left then some above
    else match tie with
      | .up => some above
      | .even => some (if below % 2 = 0 then below else above)

def leadingExponent (magnitude : Nat) : Int :=
  (Text.decimal (unitsOf magnitude * 10 ^ 400 / one)).length - 401

/-- The first grid, from `count` digits on, with a point that rounds to the magnitude. -/
def searchGrids (tie : TieRule) (magnitude count : Nat) : Nat → Scientific
  | 0 => ⟨['0'], 0⟩
  | tries + 1 =>
    let g := Grid.ofExponent (leadingExponent magnitude - count + 1)
    match g.nearest? tie magnitude with
    | some c =>
      let digits := Text.decimal c
      let trimmed := (digits.reverse.dropWhile (· == '0')).reverse
      ⟨trimmed, g.exponent + digits.length - 1⟩
    | none => searchGrids tie magnitude (count + 1) tries

/-- The shortest decimal of a number's absolute value; seventeen digits always suffice. -/
def shortest (tie : TieRule) (x : Binary64) : Scientific :=
  if x.isZero then ⟨['0'], 0⟩ else searchGrids tie x.magnitude 1 17

/--
Positional notation: digits, and a point among or before them if the value has a fraction. A whole
value ends in `ending`.
-/
def Scientific.positional (d : Scientific) (ending : List Char) : List Char :=
  if d.exponent < 0 then
    '0' :: '.' :: List.replicate (d.exponent.natAbs - 1) '0' ++ d.digits
  else
    let places := d.exponent.natAbs + 1
    if d.digits.length ≤ places then
      d.digits ++ List.replicate (places - d.digits.length) '0' ++ ending
    else d.digits.take places ++ '.' :: d.digits.drop places

def Scientific.withExponent (d : Scientific) : List Char :=
  let fraction := if d.digits.length ≤ 1 then [] else '.' :: d.digits.drop 1
  let sign := if d.exponent < 0 then '-' else '+'
  d.digits.take 1 ++ fraction ++ 'e' :: sign :: Text.decimal d.exponent.natAbs

end Binary64

end Reshape
