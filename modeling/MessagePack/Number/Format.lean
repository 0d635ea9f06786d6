import MessagePack.Bytes

/-!
# Binary interchange formats

The layout of `binary32` and `binary64` numbers, taken apart and put together in exact
natural-number arithmetic: no machine float takes part.

* `FloatFormat.magnitude`: what the bits below the sign denote.
* `FloatFormat.round`: the nearest number of the format to a quotient, ties to even.
-/

namespace MessagePack

/-- A binary floating point format: a sign bit, an exponent field and a fraction field. -/
structure FloatFormat where
  fractionBits : Nat
  exponentBits : Nat

/-- What the bits below the sign denote. -/
inductive Magnitude where
  /-- The number `significand * 2 ^ shift` in units of the format's least positive number. -/
  | finite (significand shift : Nat)
  | infinite
  /-- Not a number, with the bits of its fraction field. -/
  | nan (payload : Nat)

namespace FloatFormat

/-- Single precision. -/
def binary32 : FloatFormat := ⟨23, 8⟩

/-- Double precision. -/
def binary64 : FloatFormat := ⟨52, 11⟩

/-- The least positive number is `2 ^ -scale`, and every finite number is a multiple of it. -/
def scale (f : FloatFormat) : Nat := 2 ^ (f.exponentBits - 1) - 2 + f.fractionBits

/-- The bits of positive infinity. Smaller bits are finite and larger ones are not numbers. -/
def infinity (f : FloatFormat) : Nat := (2 ^ f.exponentBits - 1) * 2 ^ f.fractionBits

/-- The weight of the sign bit. -/
def signBit (f : FloatFormat) : Nat := 2 ^ (f.fractionBits + f.exponentBits)

/-- Whether the sign bit is set. -/
def isNegative (f : FloatFormat) (bits : Nat) : Bool := f.signBit ≤ bits

/-- The number that the bits denote, sign aside. -/
def magnitude (f : FloatFormat) (bits : Nat) : Magnitude :=
  let fraction := bits % 2 ^ f.fractionBits
  let exponent := bits / 2 ^ f.fractionBits % 2 ^ f.exponentBits
  if exponent = 2 ^ f.exponentBits - 1 then
    if fraction = 0 then .infinite else .nan fraction
  else if exponent = 0 then .finite fraction 0
  else .finite (2 ^ f.fractionBits + fraction) (exponent - 1)

/-- Puts a sign in front of the bits of a magnitude. -/
def withSign (f : FloatFormat) (negative : Bool) (bits : Nat) : Nat :=
  if negative then f.signBit + bits else bits

end FloatFormat

/-- The integer nearest to `num / den`; of two at the same distance, the even one. -/
def roundQuotient (num den : Nat) : Nat :=
  let q := num / den
  let r := num % den
  if 2 * r < den then q
  else if den < 2 * r then q + 1
  else q + q % 2

namespace FloatFormat

/-- The bits of the number nearest to `num / den`, ties to even. A quotient too large for the
format gives infinity. The significand is rounded in steps of `2 ^ shift` units, where the
shift leaves it one bit more than the fraction field; a carry out of it moves into the exponent
field by itself. -/
def round (f : FloatFormat) (num den : Nat) : Nat :=
  let units := num * 2 ^ f.scale
  let shift := (units / den).log2 - f.fractionBits
  min (shift * 2 ^ f.fractionBits + roundQuotient units (den * 2 ^ shift)) f.infinity

/-- The bits of the number of the format nearest to an integer. -/
def ofInt (f : FloatFormat) (i : Int) : Nat := f.withSign (i < 0) (f.round i.natAbs 1)

/-- The bits in `dst` of a number given by its bits in `src`: rounded to nearest, the sign kept.
What is not a number becomes a quiet one with the leading bits of its payload. -/
def convert (src dst : FloatFormat) (bits : Nat) : Nat :=
  dst.withSign (src.isNegative bits) <|
    match src.magnitude bits with
    | .finite significand shift => dst.round (significand * 2 ^ shift) (2 ^ src.scale)
    | .infinite => dst.infinity
    | .nan payload =>
      let kept := payload * 2 ^ dst.fractionBits / 2 ^ src.fractionBits
      dst.infinity + (kept ||| 2 ^ (dst.fractionBits - 1))

/-- The number toward zero from the bits, brought into `low … high`; not a number gives 0. -/
def truncate (f : FloatFormat) (low high : Int) (bits : Nat) : Int :=
  match f.magnitude bits with
  | .finite significand shift =>
    let whole : Int := (significand * 2 ^ shift / 2 ^ f.scale : Nat)
    max low (min high (if f.isNegative bits then -whole else whole))
  | .infinite => if f.isNegative bits then low else high
  | .nan _ => 0

/-- The bits of the number toward zero from the bits that has no fractional part. The sign stays,
also where nothing else is left. -/
def whole (f : FloatFormat) (bits : Nat) : Nat :=
  match f.magnitude bits with
  | .finite significand shift =>
    let unit := 2 ^ (f.scale - shift)
    if significand < unit then f.withSign (f.isNegative bits) 0 else bits - significand % unit
  | _ => bits

end FloatFormat

/-- A single precision number, known by its bits. -/
structure Binary32 where
  bits : UInt32
deriving DecidableEq, Inhabited

/-- A double precision number, known by its bits. -/
structure Binary64 where
  bits : UInt64
deriving DecidableEq, Inhabited

namespace Binary32

/-- Takes the low 32 bits. -/
def ofBits (bits : Nat) : Binary32 := ⟨UInt32.ofNat bits⟩

/-- Whether the sign bit is set. -/
def isNegative (x : Binary32) : Bool := FloatFormat.binary32.isNegative x.bits.toNat

/-- What the bits below the sign denote. -/
def magnitude (x : Binary32) : Magnitude := FloatFormat.binary32.magnitude x.bits.toNat

/-- The number nearest to an integer. -/
def ofInt (i : Int) : Binary32 := ofBits (FloatFormat.binary32.ofInt i)

end Binary32

namespace Binary64

/-- Takes the low 64 bits. -/
def ofBits (bits : Nat) : Binary64 := ⟨UInt64.ofNat bits⟩

/-- Whether the sign bit is set. -/
def isNegative (x : Binary64) : Bool := FloatFormat.binary64.isNegative x.bits.toNat

/-- What the bits below the sign denote. -/
def magnitude (x : Binary64) : Magnitude := FloatFormat.binary64.magnitude x.bits.toNat

/-- The number nearest to an integer. -/
def ofInt (i : Int) : Binary64 := ofBits (FloatFormat.binary64.ofInt i)

/-- Neither infinite nor not a number. -/
def isFinite (x : Binary64) : Bool :=
  match x.magnitude with
  | .finite .. => true
  | _ => false

/-- Not a number. -/
def isNaN (x : Binary64) : Bool :=
  match x.magnitude with
  | .nan _ => true
  | _ => false

/-- The number without its fractional part. -/
def whole (x : Binary64) : Binary64 := ofBits (FloatFormat.binary64.whole x.bits.toNat)

/-- The integer toward zero from the number, brought into `low … high`; not a number gives 0. -/
def truncate (low high : Int) (x : Binary64) : Int :=
  FloatFormat.binary64.truncate low high x.bits.toNat

end Binary64

/-- The same number in double precision; the widening is exact. -/
def Binary32.widen (x : Binary32) : Binary64 :=
  .ofBits (FloatFormat.convert .binary32 .binary64 x.bits.toNat)

/-- The nearest number in single precision. -/
def Binary64.narrow (x : Binary64) : Binary32 :=
  .ofBits (FloatFormat.convert .binary64 .binary32 x.bits.toNat)

end MessagePack
