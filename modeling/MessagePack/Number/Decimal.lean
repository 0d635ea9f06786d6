import MessagePack.Number.Format

/-!
# Shortest decimals

A float is written with the fewest decimal digits that read back as itself. The numbers that
round to a float form an interval around it; the decimal grids are tried from the coarsest
down, and the first that has a point in the interval gives the digits. Of two points the nearer
is taken, and a tie is left to the caller.

* `FloatFormat.shortest`: the digits and their power of ten.
* `DecimalLayout`: where a decimal is written positionally, and how an exponent looks.
-/

namespace MessagePack

/-- Which of two decimals at the same distance is taken. -/
inductive Tie where
  | toEven
  | awayFromZero

/-- The number `digits * 10 ^ exponent`. -/
structure Decimal where
  digits : Nat
  exponent : Int

/-- A positive number between two bounds, all three in units of `1 / unit`. -/
structure RoundingInterval where
  low : Nat
  value : Nat
  high : Nat
  unit : Nat
  /-- Whether the bounds themselves still round to the value. -/
  closed : Bool

namespace RoundingInterval

/-- The interval of numbers that round to `significand * 2 ^ shift` units. Below a power of two
the neighbour is only half as far away. -/
def ofFinite (f : FloatFormat) (significand shift : Nat) : RoundingInterval where
  low :=
    (4 * significand - if significand = 2 ^ f.fractionBits ∧ 0 < shift then 1 else 2) * 2 ^ shift
  value := 4 * significand * 2 ^ shift
  high := (4 * significand + 2) * 2 ^ shift
  unit := 4 * 2 ^ f.scale
  closed := significand % 2 = 0

/-- The multiple of `10 ^ p` in the interval that is nearest to the value, if there is one. -/
def nearest? (i : RoundingInterval) (tie : Tie) (p : Int) : Option Nat :=
  let up := 10 ^ (-p).toNat
  let step := i.unit * 10 ^ p.toNat
  let below := i.value * up / step
  let past := i.value * up % step
  let inside (d : Nat) : Bool :=
    if i.closed then i.low * up ≤ d * step ∧ d * step ≤ i.high * up
    else i.low * up < d * step ∧ d * step < i.high * up
  match inside below, inside (below + 1) with
  | true, false => some below
  | false, true => some (below + 1)
  | false, false => none
  | true, true =>
    if 2 * past < step then some below
    else if step < 2 * past then some (below + 1)
    else match tie with
      | .toEven => some (below + below % 2)
      | .awayFromZero => some (below + 1)

/-- Tries the grids of `10 ^ p`, `10 ^ (p - 1)`, … in turn. -/
def search (i : RoundingInterval) (tie : Tie) : Nat → Int → Decimal
  | 0, p => ⟨i.value * 10 ^ (-p).toNat / (i.unit * 10 ^ p.toNat), p⟩
  | fuel + 1, p =>
    match i.nearest? tie p with
    | some digits => ⟨digits, p⟩
    | none => i.search tie fuel (p - 1)

end RoundingInterval

/-- The shortest decimal that reads back as `significand * 2 ^ shift` units of the format. The
search starts above the number, from an upper bound of its decimal exponent by
`log10 2 ≈ 0.30103`; seventeen digits always suffice. -/
def FloatFormat.shortest (f : FloatFormat) (tie : Tie) (significand shift : Nat) : Decimal :=
  let exponent : Int := (significand.log2 + shift + 1 : Nat) - (f.scale : Int)
  (RoundingInterval.ofFinite f significand shift).search tie 24 (exponent * 30103 / 100000 + 2)

/-- How decimals are written. -/
structure DecimalLayout where
  /-- The least exponent of the leading digit that is written positionally. -/
  positionalFrom : Int
  /-- The exponent of the leading digit from which numbers are written with an exponent. -/
  positionalBelow : Int
  /-- Whether a positive exponent carries a sign. -/
  plusSign : Bool
  /-- Which of two equally near decimals is written. -/
  tie : Tie

namespace DecimalLayout

/-- All digits in place, with at least one on each side of the point. -/
def positional (digits : List Char) (lead : Int) : List Char :=
  if lead < 0 then
    '0' :: '.' :: List.replicate (-lead - 1).toNat '0' ++ digits
  else
    let whole := lead.toNat + 1
    if digits.length ≤ whole then
      digits ++ List.replicate (whole - digits.length) '0' ++ ['.', '0']
    else digits.take whole ++ '.' :: digits.drop whole

/-- One digit before the point, which is left out when it would be the last character, and the
exponent of that digit. -/
def scientific (layout : DecimalLayout) (digits : List Char) (lead : Int) : List Char :=
  let point := if digits.length ≤ 1 then digits else digits.take 1 ++ '.' :: digits.drop 1
  let sign := if lead < 0 then ['-'] else if layout.plusSign then ['+'] else []
  point ++ 'e' :: sign ++ Nat.toDigits 10 lead.natAbs

/-- The text of a decimal whose digits do not end in zero. -/
def decimal (layout : DecimalLayout) (d : Decimal) : List Char :=
  let digits := Nat.toDigits 10 d.digits
  let lead := d.exponent + digits.length - 1
  if layout.positionalFrom ≤ lead ∧ lead < layout.positionalBelow then positional digits lead
  else layout.scientific digits lead

/-- The text of a finite float; zero keeps its sign. -/
def finite (layout : DecimalLayout) (f : FloatFormat) (negative : Bool)
    (significand shift : Nat) : List Char :=
  let sign := if negative then ['-'] else []
  if significand = 0 then sign ++ ['0', '.', '0']
  else sign ++ layout.decimal (f.shortest layout.tie significand shift)

end DecimalLayout

end MessagePack
