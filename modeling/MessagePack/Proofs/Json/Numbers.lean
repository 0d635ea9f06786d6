import MessagePack.Json.Basic
import MessagePack.Proofs.Json.Documents
import MessagePack.Proofs.Number.Rounding

/-!
# Numbers that are read have one form

A number text becomes an integer that fits or a finite float. Scaling multiplies or divides positive
floats; what gets too large in a product is refused, and a quotient by a large power of ten is far
from the largest float.

* `NumberText.canonical_of_value?`: the number of a number text.
-/

namespace MessagePack

namespace Binary64

/-- Finite and without a sign. -/
def Bounded (x : Binary64) : Prop := x.bits.toNat < FloatFormat.binary64.infinity

theorem toNat_ofBits_round (num den : Nat) :
    (ofBits (FloatFormat.binary64.round num den)).bits.toNat =
      FloatFormat.binary64.round num den := by
  have hinfinity : FloatFormat.binary64.infinity < 2 ^ 64 := by decide
  exact toNat_ofBits (Nat.lt_of_le_of_lt (FloatFormat.round_le_infinity _ _ _) hinfinity)

theorem bounded_round {num den e : Nat} (h : num < den * 2 ^ e) (he : e ≤ 1023) :
    (ofBits (FloatFormat.binary64.round num den)).Bounded := by
  have hscale : FloatFormat.binary64.scale = 1074 := by decide
  rw [Bounded, toNat_ofBits_round]
  refine FloatFormat.round_lt_infinity h (by decide) ?_
  show e + FloatFormat.binary64.scale + 2 < 52 + 2048
  omega

theorem bounded_ofInt {n : Nat} (h : n < 2 ^ 64) : (ofInt n).Bounded := by
  rw [ofInt, FloatFormat.ofInt, decide_eq_false (Int.not_lt.2 (Int.natCast_nonneg n)),
    Int.natAbs_natCast, FloatFormat.withSign, if_neg Bool.false_ne_true]
  exact bounded_round (by rwa [Nat.one_mul]) (by decide)

/-- What is rounded has no sign. -/
theorem bounded_round_of_isFinite {num den : Nat}
    (h : (ofBits (FloatFormat.binary64.round num den)).isFinite) :
    (ofBits (FloatFormat.binary64.round num den)).Bounded := by
  rw [Bounded, toNat_ofBits_round]
  refine Nat.lt_of_le_of_ne (FloatFormat.round_le_infinity _ _ _) fun heq => ?_
  rw [heq] at h
  exact absurd h (by decide)

/-- A number without a sign is finite with a sign, too. -/
theorem isFinite_withSign {x : Binary64} (h : x.Bounded) (negative : Bool) :
    (ofBits (FloatFormat.binary64.withSign negative x.bits.toNat)).isFinite := by
  have hinfinity : FloatFormat.binary64.infinity = 2047 * 2 ^ 52 := rfl
  have hsign : FloatFormat.binary64.signBit = 2 ^ 63 := rfl
  have hlt : FloatFormat.binary64.withSign negative x.bits.toNat < 2 ^ 64 := by
    unfold Bounded at h
    unfold FloatFormat.withSign
    split <;> omega
  obtain ⟨significand, shift, hmagnitude⟩ := FloatFormat.exists_magnitude_of_lt h
  rw [isFinite, magnitude, toNat_ofBits hlt, FloatFormat.magnitude_withSign, hmagnitude]

theorem bounded_timesPositive {x y : Binary64} (h : (x.timesPositive y).isFinite) :
    (x.timesPositive y).Bounded := by
  unfold timesPositive at h ⊢
  exact bounded_round_of_isFinite h

theorem bounded_overPositive {x y : Binary64} (h : (x.overPositive y).isFinite) :
    (x.overPositive y).Bounded := by
  unfold overPositive at h ⊢
  exact bounded_round_of_isFinite h

/-- The weight of the last bit of the largest doubles. Like `Exact.one` it stays folded. -/
def topUnit : Nat := 2 ^ (2 ^ FloatFormat.binary64.exponentBits - 3)

theorem units_lt (x : Binary64) : x.units < 2 ^ (53 : Nat) * topUnit := by
  unfold units
  cases h : x.magnitude with
  | finite significand shift =>
    obtain ⟨hsignificand, hshift⟩ := FloatFormat.bounds_of_magnitude (by decide) h
    have htop : 2 ^ shift ≤ topUnit := Nat.pow_le_pow_right Nat.two_pos (by omega)
    calc significand * 2 ^ shift < 2 ^ (53 : Nat) * 2 ^ shift :=
          Nat.mul_lt_mul_of_pos_right hsignificand (Nat.two_pow_pos _)
      _ ≤ 2 ^ (53 : Nat) * topUnit := Nat.mul_le_mul_left _ htop
  | _ => exact Nat.mul_pos (Nat.two_pow_pos 53) (Nat.two_pow_pos _)

theorem topUnit_le_powerOfTen : topUnit ≤ (powerOfTen 308).units := by decide +kernel

/-- A double over the largest power of ten is far from the largest double. -/
theorem bounded_overPositive_powerOfTen (x : Binary64) :
    (x.overPositive (powerOfTen 308)).Bounded := by
  have hlt : x.units < (powerOfTen 308).units * 2 ^ (53 : Nat) := by
    rw [Nat.mul_comm]
    exact Nat.lt_of_lt_of_le x.units_lt (Nat.mul_le_mul_left _ topUnit_le_powerOfTen)
  exact bounded_round hlt (by decide)

theorem bounded_zero : (⟨0⟩ : Binary64).Bounded := by
  unfold Bounded
  decide

/-- One step of scaling: the result of the last step is checked, and that of the others is a
quotient. -/
theorem cases_of_scaleByTen {steps : Nat} {x y : Binary64} {e : Int}
    (h : x.scaleByTen steps e = some y) :
    y.Bounded ∨ y = x ∨
      ∃ n, steps = n + 1 ∧ (x.overPositive (powerOfTen 308)).scaleByTen n (e + 308) = some y := by
  rw [scaleByTen.eq_def] at h
  dsimp only at h
  by_cases hsmall : e.natAbs ≤ 308
  · rw [if_pos hsmall] at h
    generalize powerOfTen e.natAbs = power at h
    by_cases hup : 0 ≤ e
    · rw [if_pos hup, Option.ite_none_right_eq_some] at h
      exact .inl (Option.some.inj h.2 ▸ bounded_timesPositive h.1)
    · rw [if_neg hup, Option.ite_none_right_eq_some] at h
      exact .inl (Option.some.inj h.2 ▸ bounded_overPositive h.1)
  · rw [if_neg hsmall] at h
    by_cases hzero : x.units = 0
    · rw [if_pos hzero] at h
      exact .inr (.inl (Option.some.inj h).symm)
    · rw [if_neg hzero, Option.ite_none_left_eq_some] at h
      obtain ⟨-, h⟩ := h
      cases steps with
      | zero => exact .inl (Option.some.inj h ▸ bounded_zero)
      | succ n => exact .inr (.inr ⟨n, rfl, h⟩)

/-- Scaling keeps a number finite and without a sign. -/
theorem bounded_of_scaleByTen {steps : Nat} {x y : Binary64} {e : Int} (hx : x.Bounded)
    (h : x.scaleByTen steps e = some y) : y.Bounded := by
  induction steps generalizing x e with
  | zero =>
    rcases cases_of_scaleByTen h with hy | rfl | ⟨n, hn, -⟩
    · exact hy
    · exact hx
    · cases hn
  | succ steps ih =>
    rcases cases_of_scaleByTen h with hy | rfl | ⟨n, hn, hrest⟩
    · exact hy
    · exact hx
    · cases hn
      exact ih (bounded_overPositive_powerOfTen x) hrest

end Binary64

namespace Significand

/-- A digit goes behind the others only where 64 bits hold it. -/
theorem lt_of_not_isFull {s : Significand} {digit : Nat} (h : ¬s.isFull digit) :
    10 * s.digits + digit < 2 ^ 64 := by
  simpa [isFull] using h

theorem digits_addWhole_lt {s : Significand} (h : s.digits < 2 ^ 64) (ds : List Nat) :
    (s.addWhole ds).digits < 2 ^ 64 := by
  induction ds generalizing s with
  | nil => exact h
  | cons d ds ih =>
    rw [addWhole]
    split
    · exact h
    · exact ih (lt_of_not_isFull ‹_›)

theorem digits_addFraction_lt {s : Significand} (h : s.digits < 2 ^ 64) (ds : List Nat) :
    (s.addFraction ds).digits < 2 ^ 64 := by
  induction ds generalizing s with
  | nil => exact h
  | cons d ds ih =>
    rw [addFraction]
    split
    · exact h
    · exact ih (lt_of_not_isFull ‹_›)

end Significand

/-- The form of an integer goes by its sign. -/
theorem JsonNumber.canonical_ofInt {i : Int} (hmin : -2 ^ 63 ≤ i) :
    (JsonNumber.ofInt i).Canonical := by
  unfold JsonNumber.ofInt
  split
  case isTrue hneg =>
    show Int64.ofInt i < 0
    rw [Int64.lt_iff_toInt_lt, Int64.toInt_ofInt_of_le hmin (by omega), Int64.toInt_zero]
    exact hneg
  case isFalse => trivial

namespace NumberText

/-- The double of a number text is finite and without a sign. -/
theorem bounded_of_float? {t : NumberText} {x : Binary64} (h : t.float? = some x) : x.Bounded := by
  unfold float? at h
  dsimp only at h
  generalize hs : (Significand.addWhole ⟨0, 0⟩ t.whole).addFraction (t.fraction.getD []) = s at h
  have hdigits : s.digits < 2 ^ 64 := by
    rw [← hs]
    exact Significand.digits_addFraction_lt
      (Significand.digits_addWhole_lt (Nat.two_pow_pos 64) _) _
  split at h
  · split at h
    · cases h
    · cases h
      exact Binary64.bounded_zero
  · exact Binary64.bounded_of_scaleByTen (Binary64.bounded_ofInt hdigits) h

/-- The number of a number text has one form. -/
theorem canonical_of_value? {t : NumberText} {n : JsonNumber} (h : t.value? = some n) :
    n.Canonical := by
  unfold value? at h
  dsimp only at h
  split at h
  · cases h
    exact JsonNumber.canonical_ofInt (by omega)
  · split at h
    · rename_i hrange
      cases h
      simp only [Bool.and_eq_true, decide_eq_true_eq] at hrange
      obtain ⟨-, hle⟩ := hrange
      exact JsonNumber.canonical_ofInt (by omega)
    · obtain ⟨x, hx, rfl⟩ := Option.map_eq_some_iff.1 h
      have hfinite := Binary64.isFinite_withSign (bounded_of_float? hx) t.negative
      show (if t.negative then _ else x).isFinite
      cases hsign : t.negative with
      | true => rwa [hsign, FloatFormat.withSign, if_pos rfl] at hfinite
      | false =>
        rw [hsign, FloatFormat.withSign, if_neg Bool.false_ne_true, Binary64.ofBits,
          UInt64.ofNat_toNat] at hfinite
        exact hfinite

end NumberText

end MessagePack
