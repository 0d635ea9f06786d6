import MessagePack.Number.Comparison
import Mathlib.Algebra.Ring.Int.Defs
import Mathlib.Algebra.Ring.Nat
import Mathlib.Tactic.SplitIfs

/-!
# Rounding a number that a format holds

* `magnitude_round`: a multiple of the least positive number that is not too long for the fraction
  field is rounded to itself.
* `exact_widen`: widening a single precision number does not change its value.
-/

namespace MessagePack

namespace FloatFormat

variable {f : FloatFormat}

/-! ## Fields -/

/-- The bits of an exponent and a significand with its leading bit: adding them puts the leading
bit into the exponent field. -/
theorem magnitude_add {shift significand : Nat}
    (hlow : shift = 0 ∨ 2 ^ f.fractionBits ≤ significand)
    (hhigh : significand < 2 * 2 ^ f.fractionBits) (hshift : shift + 2 < 2 ^ f.exponentBits) :
    f.magnitude (shift * 2 ^ f.fractionBits + significand) = .finite significand shift := by
  have hP : 0 < 2 ^ f.fractionBits := Nat.two_pow_pos _
  generalize hPdef : 2 ^ f.fractionBits = P at *
  have hdiv : (shift * P + significand) / P = shift + significand / P := by
    rw [Nat.add_comm, Nat.add_mul_div_right _ _ hP, Nat.add_comm]
  have hmod : (shift * P + significand) % P = significand % P := by
    rw [Nat.add_comm, Nat.add_mul_mod_self_right]
  unfold magnitude
  simp only [hPdef, hdiv, hmod]
  by_cases hsmall : significand < P
  · -- Only a number without an exponent lacks the leading bit.
    obtain rfl : shift = 0 := by omega
    have hE : ¬ (0 : Nat) = 2 ^ f.exponentBits - 1 := by omega
    simp [Nat.div_eq_of_lt hsmall, Nat.mod_eq_of_lt hsmall, hE]
  · have hq : significand / P = 1 := Nat.div_eq_of_lt_le (by omega) (by omega)
    have hr : significand % P = significand - P := by
      rw [Nat.mod_eq_sub_mod (by omega), Nat.mod_eq_of_lt (by omega)]
    have hE : (shift + 1) % 2 ^ f.exponentBits = shift + 1 := Nat.mod_eq_of_lt (by omega)
    rw [hq, hr, hE, if_neg (by omega), if_neg (by omega)]
    congr 1
    omega

/-- The bits below the sign do not see it. -/
theorem magnitude_withSign {bits : Nat} (negative : Bool) :
    f.magnitude (f.withSign negative bits) = f.magnitude bits := by
  cases negative with
  | false => rfl
  | true =>
    have hsign : f.signBit = 2 ^ f.fractionBits * 2 ^ f.exponentBits := Nat.pow_add ..
    simp only [withSign, if_true, magnitude, hsign, Nat.mul_add_mod,
      Nat.mul_add_div (Nat.two_pow_pos f.fractionBits), Nat.add_mod_left]

theorem isNegative_withSign {bits : Nat} (h : bits < f.signBit) (negative : Bool) :
    f.isNegative (f.withSign negative bits) = negative := by
  cases negative with
  | false => simpa [isNegative, withSign] using h
  | true => simp [isNegative, withSign]

/-- The bits from those of infinity on. -/
theorem magnitude_infinity_add {payload : Nat} (h : payload < 2 ^ f.fractionBits) :
    f.magnitude (f.infinity + payload) = if payload = 0 then .infinite else .nan payload := by
  have hP : 0 < 2 ^ f.fractionBits := Nat.two_pow_pos _
  have hE : 0 < 2 ^ f.exponentBits := Nat.two_pow_pos _
  have hdiv : (f.infinity + payload) / 2 ^ f.fractionBits = 2 ^ f.exponentBits - 1 := by
    unfold infinity
    rw [Nat.add_comm, Nat.add_mul_div_right _ _ hP, Nat.div_eq_of_lt h, Nat.zero_add]
  have hmod : (f.infinity + payload) % 2 ^ f.fractionBits = payload := by
    unfold infinity
    rw [Nat.add_comm, Nat.add_mul_mod_self_right, Nat.mod_eq_of_lt h]
  unfold magnitude
  simp only [hdiv, hmod]
  rw [Nat.mod_eq_of_lt (by omega), if_pos rfl]

/-- The bounds of a finite number. -/
theorem bounds_of_magnitude {bits significand shift : Nat} (hE : 2 < 2 ^ f.exponentBits)
    (h : f.magnitude bits = .finite significand shift) :
    significand < 2 * 2 ^ f.fractionBits ∧ shift + 2 < 2 ^ f.exponentBits := by
  have hfraction : bits % 2 ^ f.fractionBits < 2 ^ f.fractionBits :=
    Nat.mod_lt _ (Nat.two_pow_pos _)
  have hexponent : bits / 2 ^ f.fractionBits % 2 ^ f.exponentBits < 2 ^ f.exponentBits :=
    Nat.mod_lt _ (Nat.two_pow_pos _)
  simp only [magnitude] at h
  split at h
  · split at h <;> cases h
  · split at h
    · cases h
      omega
    · cases h
      omega

theorem payload_lt {bits payload : Nat} (h : f.magnitude bits = .nan payload) :
    payload < 2 ^ f.fractionBits := by
  simp only [magnitude] at h
  split at h
  · split at h
    · cases h
    · cases h
      exact Nat.mod_lt _ (Nat.two_pow_pos _)
  · split at h <;> cases h

/-- The bits of a negative number are those of the positive one after the sign bit. -/
theorem infinity_lt_signBit : f.infinity + 2 ^ f.fractionBits ≤ f.signBit := by
  have hE : 0 < 2 ^ f.exponentBits := Nat.two_pow_pos _
  have : f.infinity + 2 ^ f.fractionBits = 2 ^ f.exponentBits * 2 ^ f.fractionBits := by
    unfold infinity
    rw [← Nat.succ_mul]
    congr 1
    omega
  rw [this, Nat.mul_comm, ← Nat.pow_add]
  exact Nat.le_refl _

/-! ## Rounding -/

theorem roundQuotient_mul {n den : Nat} (h : 0 < den) : roundQuotient (n * den) den = n := by
  simp [roundQuotient, Nat.mul_div_cancel _ h, h]

/-- `units` have at most one bit more than the fraction field, after as many zeros as are beyond
it. -/
def Holds (f : FloatFormat) (units : Nat) : Prop :=
  2 ^ (units.log2 - f.fractionBits) ∣ units ∧
    units.log2 - f.fractionBits + 2 < 2 ^ f.exponentBits

theorem holds_mul_two_pow {n m : Nat} (hn : n < 2 * 2 ^ f.fractionBits)
    (hm : m + 2 < 2 ^ f.exponentBits) : f.Holds (n * 2 ^ m) := by
  have hle : (n * 2 ^ m).log2 - f.fractionBits ≤ m := by
    by_cases h0 : n * 2 ^ m = 0
    · simp [h0]
    · have hlt : n * 2 ^ m < 2 ^ (f.fractionBits + 1 + m) := by
        rw [Nat.pow_add, Nat.pow_succ, Nat.mul_comm _ 2]
        exact Nat.mul_lt_mul_of_pos_right hn (Nat.two_pow_pos _)
      have := (Nat.log2_lt h0).2 hlt
      omega
  exact ⟨Nat.dvd_trans (Nat.pow_dvd_pow 2 hle) (Nat.dvd_mul_left ..), by omega⟩

theorem magnitude_round {num den units : Nat} (hden : 0 < den) (hq : num * 2 ^ f.scale = units * den)
    (hu : f.Holds units) :
    ∃ significand shift, f.magnitude (f.round num den) = .finite significand shift ∧
      significand * 2 ^ shift = units ∧ f.round num den < f.infinity := by
  obtain ⟨⟨q, hdvd⟩, hfit⟩ := hu
  generalize hs : units.log2 - f.fractionBits = shift at *
  have hshift : (num * 2 ^ f.scale / den).log2 - f.fractionBits = shift := by
    rw [hq, Nat.mul_div_cancel _ hden, hs]
  have hround : roundQuotient (num * 2 ^ f.scale) (den * 2 ^ shift) = q := by
    rw [hq, hdvd, show 2 ^ shift * q * den = q * (den * 2 ^ shift) by ac_rfl]
    exact roundQuotient_mul (Nat.mul_pos hden (Nat.two_pow_pos _))
  have hP : 0 < 2 ^ f.fractionBits := Nat.two_pow_pos _
  have hS : 0 < 2 ^ shift := Nat.two_pow_pos _
  have hhigh : q < 2 * 2 ^ f.fractionBits := by
    have hlt : units < 2 ^ (shift + (f.fractionBits + 1)) :=
      Nat.lt_of_lt_of_le Nat.lt_log2_self (Nat.pow_le_pow_right (by decide) (by omega))
    rw [hdvd, Nat.pow_add] at hlt
    have := Nat.lt_of_mul_lt_mul_left hlt
    rw [Nat.pow_succ] at this
    omega
  have hlow : shift = 0 ∨ 2 ^ f.fractionBits ≤ q := by
    by_cases h0 : shift = 0
    · exact .inl h0
    · right
      have hne : units ≠ 0 := by
        rintro rfl
        simp at hs
        omega
      have hle : 2 ^ (shift + f.fractionBits) ≤ units := by
        have := Nat.log2_self_le hne
        rwa [show units.log2 = shift + f.fractionBits by omega] at this
      rw [hdvd, Nat.pow_add] at hle
      exact Nat.le_of_mul_le_mul_left hle hS
  have hbits : shift * 2 ^ f.fractionBits + q < f.infinity := by
    have h1 : shift * 2 ^ f.fractionBits + q < (shift + 2) * 2 ^ f.fractionBits := by
      rw [Nat.add_mul]
      omega
    have h2 : shift + 2 ≤ 2 ^ f.exponentBits - 1 := by omega
    exact Nat.lt_of_lt_of_le h1 (Nat.mul_le_mul_right _ h2)
  have heq : f.round num den = shift * 2 ^ f.fractionBits + q := by
    unfold round
    simp only [hshift, hround]
    exact Nat.min_eq_left (Nat.le_of_lt hbits)
  refine ⟨q, shift, ?_, by rw [hdvd, Nat.mul_comm], by rw [heq]; exact hbits⟩
  rw [heq]
  exact magnitude_add hlow hhigh hfit

/-! ## Staying finite -/

theorem roundQuotient_le (num den : Nat) : roundQuotient num den ≤ num / den + 1 := by
  unfold roundQuotient
  dsimp only
  split_ifs <;> omega

/-- A quotient below the largest power of two of the format is finite when rounded. -/
theorem round_lt_infinity {num den e : Nat} (hlt : num < den * 2 ^ e)
    (hE : 3 < 2 ^ f.exponentBits) (he : e + f.scale + 2 < f.fractionBits + 2 ^ f.exponentBits) :
    f.round num den < f.infinity := by
  have hP : 0 < 2 ^ f.fractionBits := Nat.two_pow_pos _
  unfold round
  dsimp only
  generalize hq : num * 2 ^ f.scale / den = q
  generalize hshift : q.log2 - f.fractionBits = shift
  -- The shift leaves room below infinity, for a carry into the next exponent as well.
  have hlog : q = 0 ∨ q.log2 < e + f.scale := by
    refine Nat.eq_zero_or_pos q |>.imp_right fun hpos => (Nat.log2_lt (Nat.ne_of_gt hpos)).2 ?_
    rw [← hq, Nat.div_lt_iff_lt_mul (Nat.pos_of_mul_pos_right (Nat.zero_lt_of_lt hlt)), Nat.pow_add]
    calc num * 2 ^ f.scale < den * 2 ^ e * 2 ^ f.scale :=
          Nat.mul_lt_mul_of_pos_right hlt (Nat.two_pow_pos _)
      _ = 2 ^ e * 2 ^ f.scale * den := by ac_rfl
  have hround : roundQuotient (num * 2 ^ f.scale) (den * 2 ^ shift) ≤ 2 * 2 ^ f.fractionBits := by
    refine Nat.le_trans (roundQuotient_le _ _) (Nat.succ_le_of_lt ?_)
    rw [← Nat.div_div_eq_div_mul, hq, Nat.div_lt_iff_lt_mul (Nat.two_pow_pos _)]
    have hbits : q < 2 ^ (f.fractionBits + 1 + shift) :=
      Nat.lt_of_lt_of_le Nat.lt_log2_self (Nat.pow_le_pow_right (by decide) (by omega))
    rwa [Nat.pow_add, Nat.pow_succ, Nat.mul_comm _ 2] at hbits
  have hexponent : shift + 2 < 2 ^ f.exponentBits - 1 := by
    rcases hlog with rfl | hlog
    · rw [Nat.log2_zero, Nat.zero_sub] at hshift
      omega
    · omega
  refine Nat.lt_of_le_of_lt (Nat.min_le_left _ _) ?_
  calc shift * 2 ^ f.fractionBits + roundQuotient (num * 2 ^ f.scale) (den * 2 ^ shift)
      ≤ (shift + 2) * 2 ^ f.fractionBits := by rw [Nat.add_mul]; omega
    _ < f.infinity := Nat.mul_lt_mul_of_pos_right hexponent hP

/-- Bits below those of infinity are those of a finite number. -/
theorem exists_magnitude_of_lt {bits : Nat} (h : bits < f.infinity) :
    ∃ significand shift, f.magnitude bits = .finite significand shift := by
  have hexponent : bits / 2 ^ f.fractionBits < 2 ^ f.exponentBits - 1 :=
    (Nat.div_lt_iff_lt_mul (Nat.two_pow_pos _)).2 h
  unfold magnitude
  dsimp only
  rw [Nat.mod_eq_of_lt (Nat.lt_of_lt_of_le hexponent (Nat.sub_le _ _)),
    if_neg (Nat.ne_of_lt hexponent)]
  split
  · exact ⟨_, _, rfl⟩
  · exact ⟨_, _, rfl⟩

theorem round_le_infinity (f : FloatFormat) (num den : Nat) : f.round num den ≤ f.infinity :=
  Nat.min_le_right _ _

end FloatFormat

/-! ## Widening -/

/-- The exact number with a sign and a magnitude. -/
def Exact.ofMagnitude (f : FloatFormat) (negative : Bool) : Magnitude → Exact
  | .finite significand shift =>
    let units : Int := (significand * 2 ^ (shift + (1074 - f.scale)) : Nat)
    .finite (if negative then -units else units)
  | .infinite => if negative then .negInfinity else .posInfinity
  | .nan _ => .nan

theorem Exact.ofFloat_eq (f : FloatFormat) (bits : Nat) :
    Exact.ofFloat f bits = Exact.ofMagnitude f (f.isNegative bits) (f.magnitude bits) := by
  unfold Exact.ofFloat Exact.ofMagnitude
  cases f.magnitude bits <;> rfl

namespace Binary64

theorem toNat_ofBits {bits : Nat} (h : bits < 2 ^ 64) : (ofBits bits).bits.toNat = bits := by
  rw [ofBits, UInt64.toNat_ofNat']
  exact Nat.mod_eq_of_lt h

/-- What the bits of a signed double denote. -/
theorem exact_ofBits {bits : Nat} (h : bits < FloatFormat.binary64.signBit) (negative : Bool) :
    (ofBits (FloatFormat.binary64.withSign negative bits)).exact =
      .ofMagnitude .binary64 negative (FloatFormat.binary64.magnitude bits) := by
  have hS : FloatFormat.binary64.signBit = 2 ^ 63 := rfl
  have hlt : FloatFormat.binary64.withSign negative bits < 2 ^ 64 := by
    unfold FloatFormat.withSign
    rw [hS] at h ⊢
    split <;> omega
  rw [exact, Exact.ofFloat_eq, toNat_ofBits hlt, FloatFormat.magnitude_withSign,
    FloatFormat.isNegative_withSign h]

end Binary64

namespace FloatFormat

theorem binary64_infinity_lt : binary64.infinity + 2 ^ 52 ≤ binary64.signBit :=
  infinity_lt_signBit

/-- Every finite single precision number fits a double. -/
theorem magnitude_widen_finite {significand shift : Nat}
    (hsig : significand < 2 * 2 ^ binary32.fractionBits)
    (hshift : shift + 2 < 2 ^ binary32.exponentBits) :
    ∃ s k, binary64.magnitude (binary64.round (significand * 2 ^ shift) (2 ^ binary32.scale)) =
        .finite s k ∧ s * 2 ^ k = significand * 2 ^ (shift + (1074 - binary32.scale)) ∧
      binary64.round (significand * 2 ^ shift) (2 ^ binary32.scale) < binary64.infinity := by
  have hscale : binary64.scale = (1074 - binary32.scale) + binary32.scale := by decide
  have hroom : 1074 - binary32.scale + 2 ^ binary32.exponentBits ≤ 2 ^ binary64.exponentBits := by
    decide
  apply magnitude_round (Nat.two_pow_pos _)
  · rw [hscale, Nat.pow_add, Nat.pow_add, Nat.mul_assoc, Nat.mul_assoc, Nat.mul_assoc]
  · apply holds_mul_two_pow
    · exact Nat.lt_trans hsig (by decide)
    · omega

/-- What is not a number stays so. -/
theorem magnitude_widen_nan (payload : Nat) (h : payload < 2 ^ 23) :
    ∃ p, binary64.magnitude (binary64.infinity + (payload * 2 ^ 52 / 2 ^ 23 ||| 2 ^ 51)) = .nan p ∧
      binary64.infinity + (payload * 2 ^ 52 / 2 ^ 23 ||| 2 ^ 51) < binary64.signBit := by
  have hlt : payload * 2 ^ 52 / 2 ^ 23 ||| 2 ^ 51 < 2 ^ 52 :=
    Nat.or_lt_two_pow (by omega) (by decide)
  have hne : payload * 2 ^ 52 / 2 ^ 23 ||| 2 ^ 51 ≠ 0 := by
    intro h0
    have := Nat.right_le_or (n := payload * 2 ^ 52 / 2 ^ 23) (m := 2 ^ 51)
    omega
  refine ⟨_, (magnitude_infinity_add hlt).trans (if_neg hne), ?_⟩
  have := binary64_infinity_lt
  omega

end FloatFormat

/-- A single precision number is the same number in double precision. -/
theorem exact_widen (x : Binary32) : x.widen.exact = x.exact := by
  have hfit := FloatFormat.binary64_infinity_lt
  rw [Binary32.exact, Exact.ofFloat_eq]
  unfold Binary32.widen FloatFormat.convert
  cases hm : FloatFormat.binary32.magnitude x.bits.toNat with
  | finite significand shift =>
    obtain ⟨hsig, hshift⟩ := FloatFormat.bounds_of_magnitude (by decide) hm
    obtain ⟨s, k, hmag, hval, hlt⟩ := FloatFormat.magnitude_widen_finite hsig hshift
    rw [Binary64.exact_ofBits (Nat.lt_of_lt_of_le hlt (Nat.le_of_add_right_le hfit)), hmag]
    have h0 : 1074 - FloatFormat.binary64.scale = 0 := by decide
    simp only [Exact.ofMagnitude, h0, Nat.add_zero, hval]
  | infinite =>
    have hmag : FloatFormat.binary64.magnitude (FloatFormat.binary64.infinity + 0) = .infinite :=
      FloatFormat.magnitude_infinity_add (by decide)
    rw [Binary64.exact_ofBits (Nat.lt_of_lt_of_le (by decide) hfit)]
    exact congrArg _ hmag
  | nan payload =>
    have hp : payload < 2 ^ 23 := FloatFormat.payload_lt hm
    obtain ⟨p, hmag, hlt⟩ := FloatFormat.magnitude_widen_nan payload hp
    exact (Binary64.exact_ofBits hlt _).trans (congrArg _ hmag)

end MessagePack
