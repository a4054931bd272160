/-!
# Binary64 numbers

A binary64 number is a sign and a magnitude. Magnitudes count the representable absolute values
from zero upwards, so that their order is the order of the values they stand for: a magnitude is
the low 63 bits of the number's encoding. Every finite value is a whole number of units of
`2 ^ (-1074)`, and each operation takes the exact result in units and rounds it once, to the
nearest representable value, a tie going to the even magnitude.
-/

namespace Reshape

-- A power is the core library's, whatever algebra comes into scope.
@[default_instance 20000]
instance (priority := 2000) corePow {α : Type u} [NatPow α] : Pow α Nat := instPowNat

structure Binary64 where
  negative : Bool
  magnitude : Nat
  deriving DecidableEq

namespace Binary64

/-- The first magnitude past the finite ones. -/
def infinityMagnitude : Nat := 2047 * 2 ^ 52

def one : Nat := 2 ^ 1074

def zero : Binary64 := ⟨false, 0⟩

def infinity : Binary64 := ⟨false, infinityMagnitude⟩

def nan : Binary64 := ⟨false, infinityMagnitude + 2 ^ 51⟩

def neg (x : Binary64) : Binary64 := ⟨!x.negative, x.magnitude⟩

def isFinite (x : Binary64) : Bool := x.magnitude < infinityMagnitude

def isNaN (x : Binary64) : Bool := infinityMagnitude < x.magnitude

def isZero (x : Binary64) : Bool := x.magnitude == 0

def unitsOf (magnitude : Nat) : Nat :=
  if magnitude < 2 ^ 53 then magnitude
  else (2 ^ 52 + magnitude % 2 ^ 52) * 2 ^ (magnitude / 2 ^ 52 - 1)

def units (x : Binary64) : Nat := unitsOf x.magnitude

def signedUnits (x : Binary64) : Int := if x.negative then -x.units else x.units

def roundHalfEven (num den : Nat) : Nat :=
  let quotient := num / den
  let twice := 2 * (num % den)
  if twice < den then quotient
  else if den < twice then quotient + 1
  else quotient + quotient % 2

/--
The magnitude nearest to `num / den` units. Values with more than 53 significant bits are rounded
on the coarser grid of their binade; rounding up to the next binade is the next magnitude, and
rounding past the largest finite value is infinity.
-/
def nearest (num den : Nat) : Nat :=
  let shift := Nat.log2 (num / den) - 52
  min (shift * 2 ^ 52 + roundHalfEven num (den * 2 ^ shift)) infinityMagnitude

def ofRatio (negative : Bool) (num den : Nat) : Binary64 := ⟨negative, nearest (num * one) den⟩

def ofNat (n : Nat) : Binary64 := ofRatio false n 1

def ofInt (n : Int) : Binary64 := ofRatio (n < 0) n.natAbs 1

/-- The sum of two finite numbers. A sum of zero is negative only if both numbers are. -/
def add (x y : Binary64) : Binary64 :=
  let sum := x.signedUnits + y.signedUnits
  if sum = 0 then ⟨x.negative && y.negative, 0⟩ else ⟨sum < 0, nearest sum.natAbs 1⟩

def mul (x y : Binary64) : Binary64 := ⟨x.negative != y.negative, nearest (x.units * y.units) one⟩

/-- The quotient of two finite numbers, the second not zero. -/
def div (x y : Binary64) : Binary64 := ⟨x.negative != y.negative, nearest (x.units * one) y.units⟩

def isWhole (x : Binary64) : Bool := x.isFinite && x.units % one == 0

def truncate (x : Binary64) : Int := Int.tdiv x.signedUnits one

def isNegative (x : Binary64) : Bool := x.negative && !x.isZero && !x.isNaN

/-- Numeric equality: the two zeros are equal, and NaN equals nothing. -/
def equal (x y : Binary64) : Bool :=
  !x.isNaN && !y.isNaN && (x == y || (x.isZero && y.isZero))

/-- Increases with the number, with `-0` just below `0`. -/
def orderKey (x : Binary64) : Int := if x.negative then -x.magnitude - 1 else x.magnitude

@[simp]
theorem isFinite_zero : zero.isFinite = true := by decide

@[simp]
theorem not_isFinite_nan : nan.isFinite = false := by decide

theorem nearest_le_infinityMagnitude (num den : Nat) : nearest num den ≤ infinityMagnitude :=
  Nat.min_le_right _ _

theorem equal_comm (x y : Binary64) : x.equal y = y.equal x := by
  unfold equal
  rw [show (x == y) = (y == x) from Bool.beq_comm, Bool.and_comm x.isZero,
    Bool.and_comm (!x.isNaN)]

end Binary64

end Reshape
