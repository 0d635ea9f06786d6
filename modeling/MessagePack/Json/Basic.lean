import MessagePack.Number.Format
import MessagePack.SortedEntries

/-!
# JSON documents

The tree of a JSON document. Numbers keep the three forms that a decimal integer or fraction falls
into, and the members of an object are in strictly ascending order of their names.

From digits, integers in 64-bit range stay integers, except that `-0` is a float. Everything else is
a significand of at most 64 bits, scaled by a power of ten in double precision; this is not always
the double nearest to the decimal.
-/

namespace MessagePack

/-! ## Documents -/

/-- A JSON number: an integer that fits 64 bits, or a double precision number. -/
inductive JsonNumber where
  | unsigned (n : UInt64)
  /-- An integer below zero. -/
  | negative (i : Int64)
  /-- A finite number. -/
  | float (x : Binary64)
deriving DecidableEq

/-- A JSON document. -/
inductive Json where
  | null
  | bool (b : Bool)
  | number (n : JsonNumber)
  | string (s : String)
  | array (items : List Json)
  /-- Names and members, in ascending order of the names. -/
  | object (members : List (String × Json))
deriving Inhabited

/-- The number form of an integer from `-2 ^ 63` up to `2 ^ 64 - 1`. -/
def JsonNumber.ofInt (i : Int) : JsonNumber :=
  if i < 0 then .negative (Int64.ofInt i) else .unsigned (UInt64.ofNat i.toNat)

/-- The number form of a signed integer. -/
def JsonNumber.ofSigned (i : Int64) : JsonNumber :=
  if i < 0 then .negative i else .unsigned i.toUInt64

namespace Json

/-- The object that members build from left to right. Names are ordered by code point, which is
also the order of their UTF-8 bytes. -/
def ofMembers (members : List (String × Json)) : Json :=
  .object (SortedEntries.ofPairs compare members)

end Json

/-! ## Numbers from digits -/

/-- The written parts of a number: sign, digits before the point, digits after it, and a written
exponent with its sign. -/
structure NumberText where
  negative : Bool
  whole : List Nat
  fraction : Option (List Nat)
  /-- Whether the exponent is negative, and its digits. -/
  exponent : Option (Bool × List Nat)

/-- A decimal significand that is limited to 64 bits, and its power of ten. -/
structure Significand where
  digits : Nat
  exponent : Int

namespace Significand

/-- Whether one more digit would leave 64 bits. -/
def isFull (s : Significand) (digit : Nat) : Bool := 0x10000000000000000 ≤ 10 * s.digits + digit

/-- Adds digits before the point. Once the significand is full, each further digit only raises
the exponent. -/
def addWhole (s : Significand) : List Nat → Significand
  | [] => s
  | d :: ds =>
    if s.isFull d then { s with exponent := s.exponent + (d :: ds).length }
    else { s with digits := 10 * s.digits + d }.addWhole ds

/-- Adds digits after the point, up to the first that does not fit. -/
def addFraction (s : Significand) : List Nat → Significand
  | [] => s
  | d :: ds =>
    if s.isFull d then s
    else addFraction ⟨10 * s.digits + d, s.exponent - 1⟩ ds

end Significand

/-- The number that decimal digits spell. -/
def ofDigits (ds : List Nat) : Nat := ds.foldl (fun n d => 10 * n + d) 0

namespace Binary64

/-- The double nearest to a power of ten. -/
def powerOfTen (e : Nat) : Binary64 := .ofBits (FloatFormat.binary64.round (10 ^ e) 1)

/-- The value in units of `2 ^ -1074`, sign aside; infinity and what is not a number have none. -/
def units (x : Binary64) : Nat :=
  match x.magnitude with
  | .finite significand shift => significand * 2 ^ shift
  | _ => 0

/-- The double nearest to the product of two finite positive doubles. -/
def timesPositive (x y : Binary64) : Binary64 :=
  .ofBits (FloatFormat.binary64.round (x.units * y.units) (2 ^ (2 * FloatFormat.binary64.scale)))

/-- The double nearest to the quotient of two finite positive doubles. -/
def overPositive (x y : Binary64) : Binary64 :=
  .ofBits (FloatFormat.binary64.round x.units y.units)

/-- Scales a finite positive double by `10 ^ e`, in steps of at most `10 ^ 308`, each rounded;
`none` when it gets too large. Downward, zero is reached after three steps at the latest. -/
def scaleByTen (steps : Nat) (x : Binary64) (e : Int) : Option Binary64 :=
  if e.natAbs ≤ 308 then
    let power := powerOfTen e.natAbs
    let y := if 0 ≤ e then x.timesPositive power else x.overPositive power
    if y.isFinite then some y else none
  else if x.units = 0 then some x
  else if 0 < e then none
  else
    match steps with
    | 0 => some ⟨0⟩
    | steps + 1 => (x.overPositive (powerOfTen 308)).scaleByTen steps (e + 308)

end Binary64

namespace NumberText

/-- The double of a number text, sign aside. A written exponent of more than 31 bits counts as
beyond all bounds. -/
def float? (t : NumberText) : Option Binary64 :=
  let s := (Significand.addWhole ⟨0, 0⟩ t.whole).addFraction (t.fraction.getD [])
  let (down, digits) := t.exponent.getD (false, [])
  let written := ofDigits digits
  if 0x80000000 ≤ written then
    if s.digits ≠ 0 ∧ !down then none else some ⟨0⟩
  else
    let exponent := if down then s.exponent - written else s.exponent + written
    (Binary64.ofInt s.digits).scaleByTen 3 exponent

/-- The number that a number text means. -/
def value? (t : NumberText) : Option JsonNumber :=
  let whole : Int := ofDigits t.whole
  let isInteger := t.fraction.isNone && t.exponent.isNone
  if isInteger && !t.negative && whole < 0x10000000000000000 then some (.ofInt whole)
  else if isInteger && t.negative && 0 < whole && whole ≤ 0x8000000000000000 then
    some (.ofInt (-whole))
  else
    t.float?.map fun x =>
      .float (if t.negative then .ofBits (FloatFormat.binary64.signBit + x.bits.toNat) else x)

end NumberText

end MessagePack
