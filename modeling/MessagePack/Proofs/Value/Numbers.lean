import MessagePack.Proofs.Value.Order
import MessagePack.Value.Shape
import Mathlib.Algebra.Order.Field.Rat
import Mathlib.Order.WithBotTop
import Mathlib.Tactic.FieldSimp
import Mathlib.Tactic.Ring

/-!
# Numbers compare by the rationals they denote

A finite float is the rational number that its sign, exponent and fraction fields spell out. Numeric
values of all widths are ordered as these rationals, integers as themselves and infinities at
both ends, and what is not a number comes last.

* `Value.point?`: what a numeric value denotes.
* `Value.cmp_number`: the order of numeric values.
-/

namespace MessagePack

/-- A rational number, or one of the infinities below and above all of them. -/
abbrev Point := WithBotTop ℚ

namespace FloatFormat

variable (f : FloatFormat) (bits : Nat)

/-- The bits between the sign and the fraction. -/
def exponentField : Nat := bits / 2 ^ f.fractionBits % 2 ^ f.exponentBits

/-- The lowest bits. -/
def fractionField : Nat := bits % 2 ^ f.fractionBits

/-- The exponent field of the numbers from one up to two. -/
def bias : Nat := 2 ^ (f.exponentBits - 1) - 1

/-- The rational number that the bits of a finite number denote: behind the sign, a binary number
with one digit before the point, times a power of two. The digit is a zero where the exponent field
is, and the power is the least one then. -/
def toRat : ℚ :=
  let sign : ℚ := if f.isNegative bits then -1 else 1
  let fraction : ℚ := f.fractionField bits / 2 ^ f.fractionBits
  if f.exponentField bits = 0 then sign * fraction * 2 ^ (1 - (f.bias : ℤ))
  else sign * (1 + fraction) * 2 ^ ((f.exponentField bits : ℤ) - f.bias)

/-- What the bits denote, unless it is not a number. -/
def point? : Option Point :=
  if f.exponentField bits = 2 ^ f.exponentBits - 1 then
    if f.fractionField bits = 0 then some (if f.isNegative bits then ⊥ else ⊤) else none
  else some (f.toRat bits : Point)

/-! ## Fields and magnitudes -/

theorem magnitude_eq :
    f.magnitude bits =
      if f.exponentField bits = 2 ^ f.exponentBits - 1 then
        if f.fractionField bits = 0 then .infinite else .nan (f.fractionField bits)
      else if f.exponentField bits = 0 then .finite (f.fractionField bits) 0
      else .finite (2 ^ f.fractionBits + f.fractionField bits) (f.exponentField bits - 1) := rfl

/-- The least positive number, from the bias. -/
theorem scale_eq (h : 1 ≤ f.bias) : (f.scale : ℤ) = f.bias - 1 + f.fractionBits := by
  unfold scale bias at *
  omega

/-- Moving the point behind the fraction. -/
theorem div_mul_zpow (n : ℚ) (e : ℤ) (h : 1 ≤ f.bias) :
    n / 2 ^ f.fractionBits * 2 ^ (e - f.bias) = n * 2 ^ (e - 1 - f.scale) := by
  have htwo : (2 : ℚ) ≠ 0 := two_ne_zero
  rw [div_mul_eq_mul_div, mul_div_assoc, ← zpow_natCast, ← zpow_sub₀ htwo]
  congr 2
  rw [f.scale_eq h]
  omega

theorem toRat_of_zero (hbias : 1 ≤ f.bias) (h : f.exponentField bits = 0) :
    f.toRat bits = (if f.isNegative bits then -1 else 1) * f.fractionField bits *
      2 ^ (((0 : Nat) : ℤ) - f.scale) := by
  rw [toRat, if_pos h, mul_assoc, f.div_mul_zpow _ _ hbias, mul_assoc]
  rfl

theorem toRat_of_pos (hbias : 1 ≤ f.bias) (h : f.exponentField bits ≠ 0) :
    f.toRat bits = (if f.isNegative bits then -1 else 1) *
      ((2 ^ f.fractionBits + f.fractionField bits : Nat) : ℚ) *
      2 ^ (((f.exponentField bits - 1 : Nat) : ℤ) - f.scale) := by
  have hone : 1 + (f.fractionField bits : ℚ) / 2 ^ f.fractionBits =
      ((2 ^ f.fractionBits + f.fractionField bits : Nat) : ℚ) / 2 ^ f.fractionBits := by
    push_cast
    rw [add_div, div_self (pow_ne_zero _ two_ne_zero)]
  have hshift : ((f.exponentField bits - 1 : Nat) : ℤ) = f.exponentField bits - 1 := by omega
  rw [toRat, if_neg h, hone, mul_assoc, f.div_mul_zpow _ _ hbias, mul_assoc, hshift]

end FloatFormat

/-- The order of points, with what is not a number above all and equal to itself. -/
def cmpPoints : Option Point → Option Point → Ordering
  | some x, some y => compare x y
  | some _, none => .lt
  | none, some _ => .gt
  | none, none => .eq

/-- What a numeric value denotes, unless it is not a number. -/
def Value.point? : Value → Option Point
  | float32 x => FloatFormat.binary32.point? x.bits.toNat
  | float64 x => FloatFormat.binary64.point? x.bits.toNat
  | v => v.int?.map fun i => ((i : ℚ) : Point)

/-! ## Exact numbers as points -/

namespace Exact

/-- The point of an exact number. -/
def point? : Exact → Option Point
  | negInfinity => some ⊥
  | finite n => some ((n / one : ℚ) : Point)
  | posInfinity => some ⊤
  | nan => none

theorem one_pos_rat : (0 : ℚ) < one := Nat.cast_pos.2 one_pos

theorem compare_units (m n : Int) :
    compare m n = compare ((m / one : ℚ) : Point) ((n / one : ℚ) : Point) := by
  have hlt : ∀ {m n : Int}, m < n → ((m / one : ℚ) : Point) < ((n / one : ℚ) : Point) := by
    intro m n h
    rw [WithBotTop.coe_lt_coe, div_lt_div_iff_of_pos_right one_pos_rat]
    exact Int.cast_lt.2 h
  rcases Int.lt_trichotomy m n with h | rfl | h
  · rw [compare_lt_iff_lt.2 h, compare_lt_iff_lt.2 (hlt h)]
  · rw [compare_eq_iff_eq.2 rfl, compare_eq_iff_eq.2 rfl]
  · rw [compare_gt_iff_gt.2 h, compare_gt_iff_gt.2 (hlt h)]

/-- Exact numbers are in the order of their points. -/
theorem cmp_eq_cmpPoints (a b : Exact) : a.cmp b = cmpPoints a.point? b.point? := by
  have hbot : ∀ q : ℚ, (⊥ : Point) < (q : Point) := fun q => WithBot.bot_lt_coe _
  have htop : ∀ q : ℚ, (q : Point) < ⊤ := fun q => WithBot.coe_lt_coe.2 (WithTop.coe_lt_top q)
  cases a <;> cases b
  case finite.finite m n => exact compare_units m n
  case negInfinity.finite n => exact (compare_lt_iff_lt.2 (hbot _)).symm
  case negInfinity.posInfinity => exact (compare_lt_iff_lt.2 bot_lt_top).symm
  case finite.negInfinity m => exact (compare_gt_iff_gt.2 (hbot _)).symm
  case finite.posInfinity m => exact (compare_lt_iff_lt.2 (htop _)).symm
  case posInfinity.negInfinity => exact (compare_gt_iff_gt.2 bot_lt_top).symm
  case posInfinity.finite n => exact (compare_gt_iff_gt.2 (htop _)).symm
  case negInfinity.negInfinity => exact (compare_eq_iff_eq.2 rfl).symm
  case posInfinity.posInfinity => exact (compare_eq_iff_eq.2 rfl).symm
  all_goals rfl

theorem point?_ofInt (i : Int) : (ofInt i).point? = some ((i : ℚ) : Point) := by
  rw [ofInt_eq, point?, Int.cast_mul, Int.cast_natCast, mul_div_cancel_right₀ _ one_pos_rat.ne']

/-- A number of least units of a format, in wholes. -/
theorem units_div_one {scale : Nat} (h : scale ≤ 1074) (significand shift : Nat) :
    ((significand * 2 ^ (shift + (1074 - scale)) : Nat) : ℚ) / one =
      significand * 2 ^ ((shift : ℤ) - scale) := by
  have hone : ((one : Nat) : ℚ) = 2 ^ ((FloatFormat.binary64.scale : Nat) : ℤ) := by
    rw [one, Nat.cast_pow, zpow_natCast, Nat.cast_ofNat]
  have hscale : FloatFormat.binary64.scale = 1074 := by decide
  rw [hone, Nat.cast_mul, Nat.cast_pow, ← zpow_natCast, mul_div_assoc, Nat.cast_ofNat,
    ← zpow_sub₀ (two_ne_zero : (2 : ℚ) ≠ 0)]
  congr 2
  omega

theorem point?_ofMagnitude {f : FloatFormat} (hscale : f.scale ≤ 1074) (negative : Bool)
    (significand shift : Nat) :
    (ofMagnitude f negative (.finite significand shift)).point? =
      some (((if negative then -1 else 1) * significand * 2 ^ ((shift : ℤ) - f.scale) : ℚ)
        : Point) := by
  rw [mul_assoc, ← units_div_one hscale]
  rw [ofMagnitude, point?]
  generalize significand * 2 ^ (shift + (1074 - f.scale)) = units
  cases negative with
  | false => rw [if_neg Bool.false_ne_true, if_neg Bool.false_ne_true, one_mul, Int.cast_natCast]
  | true => rw [if_pos rfl, if_pos rfl, neg_one_mul, Int.cast_neg, Int.cast_natCast, neg_div]

/-- Exact numbers of a format are the points that its bits denote. -/
theorem point?_ofFloat {f : FloatFormat} (hscale : f.scale ≤ 1074) (hbias : 1 ≤ f.bias)
    (bits : Nat) : (ofFloat f bits).point? = f.point? bits := by
  rw [ofFloat_eq, f.magnitude_eq, FloatFormat.point?]
  by_cases hspecial : f.exponentField bits = 2 ^ f.exponentBits - 1
  · rw [if_pos hspecial, if_pos hspecial]
    by_cases hfraction : f.fractionField bits = 0
    · rw [if_pos hfraction, if_pos hfraction]
      cases f.isNegative bits <;> rfl
    · rw [if_neg hfraction, if_neg hfraction]
      rfl
  · rw [if_neg hspecial, if_neg hspecial]
    by_cases hzero : f.exponentField bits = 0
    · rw [if_pos hzero, point?_ofMagnitude hscale, f.toRat_of_zero bits hbias hzero]
    · rw [if_neg hzero, point?_ofMagnitude hscale, f.toRat_of_pos bits hbias hzero]

end Exact

/-! ## Values -/

theorem Kind.rank_of_isNumber {k : Kind} (h : k.isNumber) : k.rank = 1 := by
  revert h
  cases k <;> decide

namespace Value

/-- The exact value of a numeric value is the point that it denotes. -/
theorem point?_of_exactNumber? {v : Value} {x : Exact} (h : v.exactNumber? = some x) :
    v.point? = x.point? := by
  cases v <;> simp only [exactNumber?, int?, Option.map, Option.some.injEq, reduceCtorEq] at h <;>
    subst h
  case float32 x => exact (Exact.point?_ofFloat (by decide) (by decide) _).symm
  case float64 x => exact (Exact.point?_ofFloat (by decide) (by decide) _).symm
  all_goals exact (Exact.point?_ofInt _).symm

/-- Numeric values are in the order of the rational numbers that they denote, infinities at both
ends; what is not a number is above all numbers and equal to itself. -/
theorem cmp_number {a b : Value} (ha : a.isNumber) (hb : b.isNumber) :
    a.cmp b = cmpPoints a.point? b.point? := by
  have hra : a.kind.rank = 1 := Kind.rank_of_isNumber ha
  have hrb : b.kind.rank = 1 := Kind.rank_of_isNumber hb
  obtain ⟨x, hx⟩ := number?_of_rank hra
  obtain ⟨y, hy⟩ := number?_of_rank hrb
  obtain ⟨hax, hxin, -⟩ := number?_spec hx
  obtain ⟨hby, hyin, -⟩ := number?_spec hy
  have hflat : a.isFlat := isFlat_iff.2 (by rw [hra]; decide)
  calc a.cmp b = a.cmpFlat b := cmp_eq_cmpFlat hflat (hra.trans hrb.symm)
    _ = x.cmp y := cmpFlat_number hx hy
    _ = x.exact.cmp y.exact := Numeral.cmp_eq hxin hyin
    _ = cmpPoints x.exact.point? y.exact.point? := Exact.cmp_eq_cmpPoints _ _
    _ = cmpPoints a.point? b.point? := by
      rw [point?_of_exactNumber? hax, point?_of_exactNumber? hby]

/-- The double of `2 ^ 53` is below the integer after it, which no double is equal to. -/
theorem cmp_number_close :
    (float64 ⟨0x4340000000000000⟩).isNumber ∧ (int64 (2 ^ 53 + 1)).isNumber ∧
      (float64 ⟨0x4340000000000000⟩).point? = some ((2 ^ 53 : ℚ) : Point) ∧
      (float64 ⟨0x4340000000000000⟩).cmp (int64 (2 ^ 53 + 1)) = .lt := by
  have hexponent : FloatFormat.binary64.exponentField 0x4340000000000000 = 1076 := by decide
  have hfraction : FloatFormat.binary64.fractionField 0x4340000000000000 = 0 := by decide
  have hsign : FloatFormat.binary64.isNegative 0x4340000000000000 = false := by decide
  have hbias : FloatFormat.binary64.bias = 1023 := by decide
  have hrat : FloatFormat.binary64.toRat 0x4340000000000000 = 2 ^ 53 := by
    rw [FloatFormat.toRat, hexponent, hfraction, hsign, hbias]
    norm_num
  have hdouble : (float64 ⟨0x4340000000000000⟩).point? = some ((2 ^ 53 : ℚ) : Point) := by
    show FloatFormat.binary64.point? 0x4340000000000000 = _
    rw [FloatFormat.point?, hexponent, if_neg (by decide), hrat]
  have hcast : ((2 ^ 53 + 1 : Int) : ℚ) = 2 ^ 53 + 1 := by norm_num
  have hint : (int64 (2 ^ 53 + 1)).point? = some ((2 ^ 53 + 1 : ℚ) : Point) :=
    congrArg (fun q : ℚ => some (q : Point)) hcast
  have hlt : ((2 ^ 53 : ℚ) : Point) < ((2 ^ 53 + 1 : ℚ) : Point) :=
    WithBotTop.coe_lt_coe.2 (lt_add_one _)
  have hcmp := cmp_number (a := float64 ⟨0x4340000000000000⟩) (b := int64 (2 ^ 53 + 1))
    (by decide) (by decide)
  rw [hdouble, hint] at hcmp
  exact ⟨by decide, by decide, hdouble, hcmp.trans (compare_lt_iff_lt.2 hlt)⟩

end Value

end MessagePack
