import MessagePack.Number.Format

/-!
# Comparing numbers

Integers are compared as integers and floats as doubles. Between a double and an integer the
comparison is made on integers: a double outside their range is decided by the range alone, and one
inside it goes by its integer part first and by what is cut off second, so nothing is rounded.

All of them are points of one line. Every finite number in question is a multiple of `2 ^ -1074`,
the least positive double, and is kept as that multiple (`Exact`). Infinities lie beyond the finite
numbers, "not a number" is equal to itself and above all others, and both zeros are the same.
-/

namespace MessagePack

/-! ## Points of the line -/

/-- A point of the extended number line, or "not a number". -/
inductive Exact where
  | negInfinity
  /-- The number `units * 2 ^ -1074`. -/
  | finite (units : Int)
  | posInfinity
  | nan
deriving DecidableEq

namespace Exact

/-- An integer as an exact number. -/
def ofInt (i : Int) : Exact := .finite (i * 2 ^ (1074 : Nat))

/-- The number that the bits denote in a format whose scale is at most 1074. -/
def ofFloat (f : FloatFormat) (bits : Nat) : Exact :=
  match f.magnitude bits with
  | .finite significand shift =>
    let units : Int := (significand * 2 ^ (shift + (1074 - f.scale)) : Nat)
    .finite (if f.isNegative bits then -units else units)
  | .infinite => if f.isNegative bits then .negInfinity else .posInfinity
  | .nan _ => .nan

/-- The place of a class of numbers among the others. -/
def rank : Exact → Nat
  | .negInfinity => 0
  | .finite _ => 1
  | .posInfinity => 2
  | .nan => 3

/-- The order of exact numbers, in which not a number is equal to itself and above all others. -/
def cmp : Exact → Exact → Ordering
  | .finite a, .finite b => compare a b
  | a, b => compare a.rank b.rank

end Exact

/-- The number as a point of the line. -/
def Binary32.exact (x : Binary32) : Exact := .ofFloat .binary32 x.bits.toNat

/-- The number as a point of the line. -/
def Binary64.exact (x : Binary64) : Exact := .ofFloat .binary64 x.bits.toNat

/-! ## Comparisons -/

/-- A number as it is compared: integers of every width, floats in double precision. -/
inductive Numeral where
  | int (i : Int)
  | double (x : Binary64)
deriving DecidableEq

namespace Binary64

/-- The order of two doubles by value, if both are numbers. -/
def compare? (x y : Binary64) : Option Ordering :=
  match x.exact, y.exact with
  | .nan, _ => none
  | _, .nan => none
  | a, b => some (a.cmp b)

/-- The order of doubles, not a number on top. Both zeros are equal. -/
def cmp (x y : Binary64) : Ordering :=
  match x.isNaN, y.isNaN with
  | true, true => .eq
  | true, false => .gt
  | false, true => .lt
  | false, false => (x.compare? y).getD .eq

/-- The least double above every integer of 64 bits. -/
def pastIntegers : Binary64 := ofInt 0x10000000000000000

/-- The least integer of 64 bits. -/
def leastInteger : Binary64 := ofInt (-0x8000000000000000)

/-- The order of a double and an integer of at most 64 bits. -/
def cmpInt (x : Binary64) (i : Int) : Ordering :=
  if x.isNaN || (x.compare? pastIntegers).any (·.isGE) then .gt
  else if (x.compare? leastInteger).any (·.isLT) then .lt
  else
    match compare (x.whole.truncate (-0x80000000000000000000000000000000)
      0x7fffffffffffffffffffffffffffffff) i with
    | .eq => x.cmp x.whole
    | o => o

end Binary64

/-- The order of numbers. -/
def Numeral.cmp : Numeral → Numeral → Ordering
  | int i, int j => compare i j
  | double x, double y => x.cmp y
  | double x, int i => x.cmpInt i
  | int i, double x => (x.cmpInt i).swap

end MessagePack
