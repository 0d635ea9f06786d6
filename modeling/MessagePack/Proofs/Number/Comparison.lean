import MessagePack.Number.Comparison
import MessagePack.Proofs.Number.Rounding

/-!
# Comparing numbers is exact

* `Binary64.cmp_eq`, `Binary64.cmpInt_eq`: doubles compare by exact value, with each other and with
  every integer of 64 bits.
* `Numeral.cmp_eq`: so do any two numbers.
-/

namespace MessagePack

namespace Exact

/-- The number of units in one. It stays folded, as its digits are of no use to a proof. -/
def one : Nat := 2 ^ FloatFormat.binary64.scale

theorem one_pos : 0 < one := Nat.two_pow_pos _

theorem ofInt_eq (i : Int) : ofInt i = .finite (i * one) := by
  have hscale : FloatFormat.binary64.scale = 1074 := by decide
  unfold ofInt one
  rw [Int.natCast_pow, hscale]
  rfl

theorem cmp_finite (a b : Int) : cmp (.finite a) (.finite b) = compare a b := rfl

end Exact

namespace FloatFormat

variable {f : FloatFormat}

/-- Taking away a part of the fraction field leaves sign and exponent as they are. -/
theorem fields_sub {bits cut : Nat} (h : cut ≤ bits % 2 ^ f.fractionBits) :
    (bits - cut) / 2 ^ f.fractionBits = bits / 2 ^ f.fractionBits ∧
      (bits - cut) % 2 ^ f.fractionBits = bits % 2 ^ f.fractionBits - cut := by
  have hP : 0 < 2 ^ f.fractionBits := Nat.two_pow_pos _
  generalize 2 ^ f.fractionBits = P at *
  have hlt := Nat.mod_lt bits hP
  have hsplit : bits - cut = (bits % P - cut) + P * (bits / P) := by
    have := Nat.mod_add_div bits P
    omega
  have hsmall : bits % P - cut < P := by omega
  rw [hsplit, Nat.add_mul_div_left _ _ hP, Nat.add_mul_mod_self_left, Nat.div_eq_of_lt hsmall,
    Nat.mod_eq_of_lt hsmall, Nat.zero_add]
  exact ⟨rfl, rfl⟩

theorem isNegative_eq (bits : Nat) :
    f.isNegative bits = decide (2 ^ f.exponentBits ≤ bits / 2 ^ f.fractionBits) := by
  unfold isNegative signBit
  rw [Nat.pow_add, Nat.mul_comm]
  exact decide_eq_decide.2 (Nat.le_div_iff_mul_le (Nat.two_pow_pos _)).symm

/-- A finite number whose unit of one lies in its fraction field loses the bits below it. -/
theorem magnitude_cut {bits significand shift cut : Nat} (hf : f.fractionBits ≤ f.scale)
    (hm : f.magnitude bits = .finite significand shift)
    (hunit : 2 ^ (f.scale - shift) ≤ significand)
    (hcut : cut = significand % 2 ^ (f.scale - shift)) :
    f.magnitude (bits - cut) = .finite (significand - cut) shift ∧
      f.isNegative (bits - cut) = f.isNegative bits := by
  have hfraction : bits % 2 ^ f.fractionBits < 2 ^ f.fractionBits :=
    Nat.mod_lt _ (Nat.two_pow_pos _)
  have hm' := hm
  simp only [magnitude] at hm'
  split at hm'
  · split at hm' <;> cases hm'
  split at hm'
  · -- A subnormal number is below one.
    obtain ⟨rfl, rfl⟩ := Magnitude.finite.inj hm'
    have := Nat.pow_le_pow_right (show 0 < 2 by decide) hf
    rw [Nat.sub_zero] at hunit
    omega
  · rename_i hspecial hzero
    obtain ⟨rfl, rfl⟩ := Magnitude.finite.inj hm'
    generalize hunit' : f.scale - (bits / 2 ^ f.fractionBits % 2 ^ f.exponentBits - 1) = j at *
    have hj : j ≤ f.fractionBits := by
      have h2 : 2 ^ j < 2 ^ (f.fractionBits + 1) := by
        rw [Nat.pow_succ]
        omega
      have := (Nat.pow_lt_pow_iff_right (show 1 < 2 by decide)).1 h2
      omega
    rw [Nat.add_mod, Nat.mod_eq_zero_of_dvd (Nat.pow_dvd_pow 2 hj), Nat.zero_add,
      Nat.mod_mod] at hcut
    have hle : cut ≤ bits % 2 ^ f.fractionBits := hcut ▸ Nat.mod_le _ _
    obtain ⟨hdiv, hmod⟩ := fields_sub (f := f) hle
    constructor
    · simp only [magnitude, hdiv, hmod, if_neg hspecial, if_neg hzero]
      congr 1
      omega
    · rw [isNegative_eq, isNegative_eq, hdiv]

end FloatFormat

namespace Binary64

/-- The sign and the magnitude behind an exact value. -/
theorem exact_eq (x : Binary64) : x.exact = .ofMagnitude .binary64 x.isNegative x.magnitude :=
  Exact.ofFloat_eq ..

/-- A finite double, by its sign and its number of units. -/
theorem finite_of_exact {x : Binary64} {n : Int} (h : x.exact = .finite n) :
    ∃ significand shift, x.magnitude = .finite significand shift ∧
      n = if x.isNegative then -((significand * 2 ^ shift : Nat) : Int)
        else (significand * 2 ^ shift : Nat) := by
  rw [exact_eq] at h
  cases hm : x.magnitude with
  | finite significand shift =>
    rw [hm] at h
    have h0 : 1074 - FloatFormat.binary64.scale = 0 := by decide
    simp only [Exact.ofMagnitude, h0, Nat.add_zero, Exact.finite.injEq] at h
    exact ⟨significand, shift, rfl, h.symm⟩
  | infinite =>
    rw [hm] at h
    simp only [Exact.ofMagnitude] at h
    split at h <;> cases h
  | nan payload =>
    rw [hm] at h
    cases h

theorem tdiv_signed (negative : Bool) (u d : Nat) :
    (if negative then -(u : Int) else u).tdiv d =
      if negative then -((u / d : Nat) : Int) else (u / d : Nat) := by
  cases negative with
  | false => exact (Int.ofNat_tdiv u d).symm
  | true =>
    simp only [if_true]
    rw [Int.neg_tdiv, ← Int.ofNat_tdiv]

/-- The integer part of a double. -/
theorem truncate_eq {x : Binary64} {n : Int} (h : x.exact = .finite n) (low high : Int) :
    x.truncate low high = max low (min high (n.tdiv Exact.one)) := by
  obtain ⟨significand, shift, hm, rfl⟩ := finite_of_exact h
  have hm' : FloatFormat.binary64.magnitude x.bits.toNat = .finite significand shift := hm
  have hone : 2 ^ FloatFormat.binary64.scale = Exact.one := rfl
  rw [tdiv_signed]
  simp only [truncate, FloatFormat.truncate, hm', hone]
  rfl

/-- A number of units without what exceeds the last whole one. -/
theorem units_cut (significand shift scale : Nat) :
    (significand - significand % 2 ^ (scale - shift)) * 2 ^ shift =
      significand * 2 ^ shift / 2 ^ scale * 2 ^ scale := by
  by_cases hle : shift ≤ scale
  · have hpow : 2 ^ scale = 2 ^ (scale - shift) * 2 ^ shift := by
      rw [← Nat.pow_add, Nat.sub_add_cancel hle]
    have hsub : significand - significand % 2 ^ (scale - shift) =
        significand / 2 ^ (scale - shift) * 2 ^ (scale - shift) := by
      have := Nat.div_add_mod' significand (2 ^ (scale - shift))
      omega
    rw [hpow, Nat.mul_div_mul_right _ _ (Nat.two_pow_pos shift), hsub, Nat.mul_assoc]
  · have hpow : 2 ^ shift = 2 ^ (shift - scale) * 2 ^ scale := by
      rw [← Nat.pow_add, Nat.sub_add_cancel (by omega)]
    rw [show scale - shift = 0 by omega, Nat.pow_zero, Nat.mod_one, Nat.sub_zero, hpow,
      ← Nat.mul_assoc, Nat.mul_div_cancel _ (Nat.two_pow_pos scale)]

/-- The whole part of a double is again a double. -/
theorem exact_whole {x : Binary64} {n : Int} (h : x.exact = .finite n) :
    x.whole.exact = .finite (n.tdiv Exact.one * Exact.one) := by
  obtain ⟨significand, shift, hm, rfl⟩ := finite_of_exact h
  have hm' : FloatFormat.binary64.magnitude x.bits.toNat = .finite significand shift := hm
  have h0 : 1074 - FloatFormat.binary64.scale = 0 := by decide
  rw [tdiv_signed]
  unfold whole FloatFormat.whole
  simp only [hm']
  by_cases hsmall : significand < 2 ^ (FloatFormat.binary64.scale - shift)
  · have hzero : significand * 2 ^ shift / Exact.one = 0 := by
      have hcut := units_cut significand shift FloatFormat.binary64.scale
      rw [Nat.mod_eq_of_lt hsmall, Nat.sub_self, Nat.zero_mul] at hcut
      have hone := Exact.one_pos
      rcases Nat.mul_eq_zero.1 hcut.symm with hq | hq
      · exact hq
      · exact absurd hq (Nat.ne_of_gt hone)
    have hmag : FloatFormat.binary64.magnitude 0 = .finite 0 0 := rfl
    rw [if_pos hsmall, exact_ofBits (by decide), hzero, hmag]
    rw [Exact.ofMagnitude, Nat.zero_mul]
    simp only [Int.natCast_zero, Int.neg_zero, ite_self, Int.zero_mul]
  · obtain ⟨hmag, hsign⟩ := FloatFormat.magnitude_cut (by decide) hm' (by omega) rfl
    have hbits : x.bits.toNat < 2 ^ 64 := x.bits.toNat_lt
    rw [if_neg hsmall, exact, toNat_ofBits (by omega), Exact.ofFloat_eq, hmag, hsign]
    rw [Exact.ofMagnitude, h0, Nat.add_zero, units_cut]
    show Exact.finite (if x.isNegative then _ else _) = _
    congr 1
    split
    · rw [Int.neg_mul, Int.natCast_mul]
      rfl
    · rw [Int.natCast_mul]
      rfl

/-! ## Doubles -/

theorem isNaN_iff {x : Binary64} : x.isNaN = true ↔ x.exact = .nan := by
  rw [exact_eq, isNaN]
  cases x.magnitude with
  | finite significand shift => simp [Exact.ofMagnitude]
  | infinite => cases x.isNegative <;> simp [Exact.ofMagnitude]
  | nan payload => simp [Exact.ofMagnitude]

theorem compare?_eq {x y : Binary64} (hx : x.exact ≠ .nan) (hy : y.exact ≠ .nan) :
    x.compare? y = some (x.exact.cmp y.exact) := by
  unfold compare?
  cases hx' : x.exact <;> cases hy' : y.exact <;> simp_all

/-- Doubles compare by exact value. -/
theorem cmp_eq (x y : Binary64) : x.cmp y = x.exact.cmp y.exact := by
  have hx := isNaN_iff (x := x)
  have hy := isNaN_iff (x := y)
  unfold cmp
  cases hnx : x.isNaN <;> cases hny : y.isNaN
  · have hx' : x.exact ≠ .nan := fun h => by simp [hnx, h] at hx
    have hy' : y.exact ≠ .nan := fun h => by simp [hny, h] at hy
    simp [compare?_eq hx' hy']
  · rw [hny] at hy
    rw [hnx] at hx
    rw [hy.1 rfl]
    cases h : x.exact <;> simp_all [Exact.cmp, Exact.rank] <;> rfl
  · rw [hny] at hy
    rw [hnx] at hx
    rw [hx.1 rfl]
    cases h : y.exact <;> simp_all [Exact.cmp, Exact.rank] <;> rfl
  · rw [hx.1 hnx, hy.1 hny]
    rfl

/-! ## Doubles and integers -/

theorem exact_pastIntegers : pastIntegers.exact = .ofInt (2 ^ 64) := by
  decide +kernel

theorem exact_leastInteger : leastInteger.exact = .ofInt (-2 ^ 63) := by
  decide +kernel

/-- Cutting off toward zero decides the order with an integer, up to the part cut off. -/
theorem compare_tdiv {n i one : Int} (hone : 0 < one) (h : n.tdiv one ≠ i) :
    compare (n.tdiv one) i = compare n (i * one) := by
  have hn := Int.mul_tdiv_add_tmod n one
  have hlow := Int.lt_tmod_of_pos n hone
  have hhigh := Int.tmod_lt_of_pos n hone
  generalize n.tdiv one = t at *
  generalize n.tmod one = r at *
  rcases Int.lt_or_gt_of_ne h with hlt | hgt
  · have hle := Int.mul_le_mul_of_nonneg_right (show t + 1 ≤ i by omega) (Int.le_of_lt hone)
    rw [Int.add_mul, Int.one_mul, Int.mul_comm] at hle
    rw [Int.compare_eq_lt.2 hlt, Int.compare_eq_lt.2 (by omega)]
  · have hle := Int.mul_le_mul_of_nonneg_right (show i + 1 ≤ t by omega) (Int.le_of_lt hone)
    rw [Int.add_mul, Int.one_mul, Int.mul_comm t] at hle
    rw [Int.compare_eq_gt.2 hgt, Int.compare_eq_gt.2 (by omega)]

/-- The integer part of a number inside bounds is inside them. -/
theorem tdiv_mem {n low high one : Int} (hone : 0 < one) (hlow : low * one ≤ n)
    (hhigh : n < high * one) : low ≤ n.tdiv one ∧ n.tdiv one ≤ high := by
  have hn := Int.mul_tdiv_add_tmod n one
  have hr := Int.lt_tmod_of_pos n hone
  have hr' := Int.tmod_lt_of_pos n hone
  generalize n.tdiv one = t at *
  generalize n.tmod one = r at *
  rw [Int.mul_comm] at hn
  constructor
  · have : low * one < (t + 1) * one := by rw [Int.add_mul]; omega
    have := Int.lt_of_mul_lt_mul_right this (Int.le_of_lt hone)
    omega
  · have : t * one < (high + 1) * one := by rw [Int.add_mul]; omega
    have := Int.lt_of_mul_lt_mul_right this (Int.le_of_lt hone)
    omega

/-- Inside the range of the integers, the integer part decides, and after it the rest. -/
theorem cmpInt_eq_of_mem {x : Binary64} {n : Int} (hx : x.exact = .finite n)
    (hlow : -2 ^ 63 * (Exact.one : Int) ≤ n) (hhigh : n < 2 ^ 64 * Exact.one) (i : Int) :
    (match compare (x.whole.truncate (-2 ^ 127) (2 ^ 127 - 1)) i with
      | .eq => x.cmp x.whole
      | o => o) = compare n (i * Exact.one) := by
  have hone : (0 : Int) < Exact.one := Int.natCast_pos.2 Exact.one_pos
  have hwhole := exact_whole hx
  obtain ⟨ht, ht'⟩ := tdiv_mem hone hlow hhigh
  rw [truncate_eq hwhole, Int.mul_tdiv_cancel _ (Int.ne_of_gt hone), cmp_eq, hx, hwhole,
    Exact.cmp_finite, Int.min_eq_right (by omega), Int.max_eq_right (by omega)]
  by_cases hi : n.tdiv Exact.one = i
  · rw [hi, Int.compare_eq_eq.2 rfl]
  · rw [← compare_tdiv hone hi]
    cases h : compare (n.tdiv Exact.one) i with
    | eq => exact absurd (Int.compare_eq_eq.1 h) hi
    | lt => rfl
    | gt => rfl

/-- A double and an integer of 64 bits compare by exact value. -/
theorem cmpInt_eq (x : Binary64) {i : Int} (hlow : -2 ^ 63 ≤ i) (hhigh : i < 2 ^ 64) :
    x.cmpInt i = x.exact.cmp (.ofInt i) := by
  have hone : (0 : Int) < Exact.one := Int.natCast_pos.2 Exact.one_pos
  have hpast : pastIntegers.exact ≠ .nan := by
    rw [exact_pastIntegers, Exact.ofInt_eq]
    exact nofun
  have hleast : leastInteger.exact ≠ .nan := by
    rw [exact_leastInteger, Exact.ofInt_eq]
    exact nofun
  unfold cmpInt
  by_cases hnan : x.exact = .nan
  · rw [isNaN_iff.2 hnan, hnan]
    rfl
  have hnot : x.isNaN = false := Bool.eq_false_iff.2 fun h => hnan (isNaN_iff.1 h)
  rw [compare?_eq hnan hpast, compare?_eq hnan hleast, exact_pastIntegers, exact_leastInteger, hnot]
  cases hx : x.exact with
  | nan => exact absurd hx hnan
  | negInfinity => rfl
  | posInfinity => rfl
  | finite n =>
    simp only [Exact.ofInt_eq, Exact.cmp_finite, Bool.false_or, Option.any_some]
    have hi := Int.mul_le_mul_of_nonneg_right hlow (Int.le_of_lt hone)
    have hi' := Int.mul_lt_mul_of_pos_right hhigh hone
    split
    · rename_i hge
      have := Int.isGE_compare.1 hge
      rw [Int.compare_eq_gt.2 (by omega)]
    split
    · rename_i hlt
      have := Int.compare_eq_lt.1 (Ordering.isLT_iff_eq_lt.1 hlt)
      rw [Int.compare_eq_lt.2 (by omega)]
    · rename_i hnotge hnotlt
      apply cmpInt_eq_of_mem hx
      · exact Int.not_lt.1 fun h => hnotlt (by rw [Int.compare_eq_lt.2 h]; rfl)
      · exact Int.not_le.1 fun h => hnotge (Int.isGE_compare.2 h)

end Binary64

/-! ## Numbers -/

namespace Exact

/-- The units of a finite number. -/
def units : Exact → Int
  | finite n => n
  | _ => 0

/-- Exact numbers go by their class first and by their units second. -/
theorem cmp_eq_compareLex : cmp = compareLex (compareOn rank) (compareOn units) := by
  funext a b
  cases a <;> cases b <;> rfl

instance : Std.TransCmp cmp := cmp_eq_compareLex ▸ inferInstance

/-- Integers keep their order among the exact numbers. -/
theorem cmp_ofInt (i j : Int) : (ofInt i).cmp (ofInt j) = compare i j := by
  have hone : (0 : Int) < one := Int.natCast_pos.2 one_pos
  rw [ofInt_eq, ofInt_eq, cmp_finite]
  cases h : compare i j with
  | lt =>
    exact Int.compare_eq_lt.2 (Int.mul_lt_mul_of_pos_right (Int.compare_eq_lt.1 h) hone)
  | eq => rw [Int.compare_eq_eq.1 h, Int.compare_eq_eq.2 rfl]
  | gt =>
    exact Int.compare_eq_gt.2 (Int.mul_lt_mul_of_pos_right (Int.compare_eq_gt.1 h) hone)

end Exact

namespace Numeral

/-- The exact number that is compared. -/
def exact : Numeral → Exact
  | int i => .ofInt i
  | double x => x.exact

/-- Whether 64 bits hold the number. -/
def InRange : Numeral → Prop
  | int i => -2 ^ 63 ≤ i ∧ i < 2 ^ 64
  | double _ => True

/-- Numbers compare by exact value. -/
theorem cmp_eq {a b : Numeral} (ha : a.InRange) (hb : b.InRange) :
    a.cmp b = a.exact.cmp b.exact := by
  cases a with
  | int i =>
    cases b with
    | int j => exact (Exact.cmp_ofInt i j).symm
    | double y =>
      show (y.cmpInt i).swap = (Exact.ofInt i).cmp y.exact
      rw [Binary64.cmpInt_eq y ha.1 ha.2]
      exact Std.OrientedCmp.eq_swap.symm
  | double x =>
    cases b with
    | int j => exact Binary64.cmpInt_eq x hb.1 hb.2
    | double y => exact Binary64.cmp_eq x y

end Numeral

end MessagePack
