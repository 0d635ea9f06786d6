import MessagePack.Text.Utf8
import MessagePack.Value.Order
import Mathlib.Tactic.IntervalCases

/-!
# Text comes back from its bytes

The UTF-8 bytes of a text have no fault, and decoding them gives the text. A first byte tells how
many more are due; where it alone would let in a number that a shorter form spells, a surrogate or
a number above all characters, it also narrows what the second byte may be.

* `Text.decodeLossy_utf8`: decoding the bytes of a text.
* `utf8_injective`: texts with the same bytes are the same.
-/

namespace MessagePack

namespace Text

/-! ## One byte -/

/-- The only byte of a character. -/
theorem takeByte_one {n : Nat} (h : n ≤ 0x7f) :
    takeByte .start (UInt8.ofNat n) = ([some (Char.ofNat n)], .start) := by
  have hn : (UInt8.ofNat n).toNat = n := UInt8.toNat_ofNat_of_lt' (show n < 2 ^ 8 by omega)
  have hlt : UInt8.ofNat n < 0x80 := by
    rw [UInt8.lt_iff_toNat_lt, hn]
    exact Nat.lt_succ_of_le h
  rw [takeByte, leadByte, if_pos hlt, hn]

/-- The first of two bytes. -/
theorem takeByte_two {n : Nat} (hlow : 2 ≤ n) (hhigh : n < 32) :
    takeByte .start (UInt8.ofNat (n + 0xc0)) = ([], .inside 1 0x80 0xbf n) := by
  interval_cases n <;> rfl

/-- The first of three bytes. -/
theorem takeByte_three {n : Nat} (h : n < 16) :
    takeByte .start (UInt8.ofNat (n + 0xe0)) =
      ([], .inside 2 (if n = 0 then 0xa0 else 0x80) (if n = 13 then 0x9f else 0xbf) n) := by
  interval_cases n <;> rfl

/-- The first of four bytes. -/
theorem takeByte_four {n : Nat} (h : n ≤ 4) :
    takeByte .start (UInt8.ofNat (n + 0xf0)) =
      ([], .inside 3 (if n = 0 then 0x90 else 0x80) (if n = 4 then 0x8f else 0xbf) n) := by
  interval_cases n <;> rfl

/-- A further byte brings six bits. -/
theorem takeByte_inside {left code n : Nat} {low high : UInt8} (hn : n < 64)
    (hlow : low.toNat ≤ n + 0x80) (hhigh : n + 0x80 ≤ high.toNat) :
    takeByte (.inside left low high code) (UInt8.ofNat (n + 0x80)) =
      if left ≤ 1 then ([some (Char.ofNat (64 * code + n))], .start)
      else ([], .inside (left - 1) 0x80 0xbf (64 * code + n)) := by
  have hb : (UInt8.ofNat (n + 0x80)).toNat = n + 0x80 :=
    UInt8.toNat_ofNat_of_lt' (show n + 0x80 < 2 ^ 8 by omega)
  have hbits : (UInt8.ofNat (n + 0x80) &&& 0x3f).toNat = n := by
    rw [UInt8.toNat_and, hb]
    show (n + 0x80) &&& (2 ^ 6 - 1) = n
    rw [Nat.and_two_pow_sub_one_eq_mod]
    omega
  have hrange : low ≤ UInt8.ofNat (n + 0x80) ∧ UInt8.ofNat (n + 0x80) ≤ high := by
    rw [UInt8.le_iff_toNat_le, UInt8.le_iff_toNat_le, hb]
    exact ⟨hlow, hhigh⟩
  rw [takeByte, if_pos hrange, hbits]

/-- The last byte of a character. -/
theorem takeByte_last {code n : Nat} (hn : n < 64) {low high : UInt8}
    (hlow : low.toNat ≤ n + 0x80) (hhigh : n + 0x80 ≤ high.toNat) :
    takeByte (.inside 1 low high code) (UInt8.ofNat (n + 0x80)) =
      ([some (Char.ofNat (64 * code + n))], .start) := takeByte_inside hn hlow hhigh

/-- A byte after which more are due. -/
theorem takeByte_more {left code n : Nat} {low high : UInt8} (hn : n < 64)
    (hlow : low.toNat ≤ n + 0x80) (hhigh : n + 0x80 ≤ high.toNat) :
    takeByte (.inside (left + 2) low high code) (UInt8.ofNat (n + 0x80)) =
      ([], .inside (left + 1) 0x80 0xbf (64 * code + n)) := takeByte_inside hn hlow hhigh

/-! ## Characters -/

theorem decodeFrom_cons {state state' : Utf8State} {more : List (Option Char)} {b : UInt8}
    (h : takeByte state b = (more, state')) (settled : List (Option Char)) (bs : Bytes) :
    decodeFrom state settled (b :: bs) = decodeFrom state' (more ++ settled) bs := by
  rw [decodeFrom, h]

/-- The bytes of a character settle the character. -/
theorem decodeFrom_utf8EncodeChar (c : Char) (settled : List (Option Char)) (rest : Bytes) :
    decodeFrom .start settled (String.utf8EncodeChar c ++ rest) =
      decodeFrom .start (some c :: settled) rest := by
  have hvalid : c.toNat < 0xd800 ∨ 0xdfff < c.toNat ∧ c.toNat < 0x110000 := c.valid
  have hc : ∀ n, n = c.toNat → Char.ofNat n = c := fun n hn => by rw [hn, Char.ofNat_toNat]
  unfold String.utf8EncodeChar
  rw [show c.val.toNat = c.toNat from rfl]
  generalize c.toNat = v at hvalid hc
  dsimp only
  split_ifs with h1 h2 h3
  · rw [List.singleton_append, decodeFrom_cons (takeByte_one h1), hc v rfl, List.singleton_append]
  · have hfirst := takeByte_two (n := v / 64 % 32) (by omega) (by omega)
    rw [List.cons_append, List.singleton_append, decodeFrom_cons hfirst,
      decodeFrom_cons (takeByte_last (by omega) (by simp) (by simp; omega)), hc _ (by omega)]
    rfl
  · have hfirst := takeByte_three (n := v / 4096 % 16) (by omega)
    -- Within bounds: no shorter form spells the number, and it is no surrogate.
    have hlow : (if v / 4096 % 16 = 0 then 0xa0 else 0x80 : UInt8).toNat ≤ v / 64 % 64 + 0x80 := by
      split <;> simp; omega
    have hhigh : v / 64 % 64 + 0x80 ≤
        (if v / 4096 % 16 = 13 then 0x9f else 0xbf : UInt8).toNat := by
      split <;> simp <;> omega
    rw [List.cons_append, List.cons_append, List.singleton_append, decodeFrom_cons hfirst,
      decodeFrom_cons (takeByte_more (by omega) hlow hhigh),
      decodeFrom_cons (takeByte_last (by omega) (by simp) (by simp; omega)), hc _ (by omega)]
    rfl
  · have hfirst := takeByte_four (n := v / 262144 % 8) (by omega)
    -- Within bounds: no shorter form spells the number, and it is not above all characters.
    have hlow : (if v / 262144 % 8 = 0 then 0x90 else 0x80 : UInt8).toNat ≤
        v / 4096 % 64 + 0x80 := by
      split <;> simp; omega
    have hhigh : v / 4096 % 64 + 0x80 ≤
        (if v / 262144 % 8 = 4 then 0x8f else 0xbf : UInt8).toNat := by
      split <;> simp <;> omega
    rw [List.cons_append, List.cons_append, List.cons_append, List.singleton_append,
      decodeFrom_cons hfirst, decodeFrom_cons (takeByte_more (by omega) hlow hhigh),
      decodeFrom_cons (takeByte_more (by omega) (by simp) (by simp; omega)),
      decodeFrom_cons (takeByte_last (by omega) (by simp) (by simp; omega)), hc _ (by omega)]
    rfl

theorem decodeFrom_flatMap (cs : List Char) (settled : List (Option Char)) :
    decodeFrom .start settled (cs.flatMap String.utf8EncodeChar) =
      settled.reverse ++ cs.map some := by
  induction cs generalizing settled with
  | nil => rw [List.map_nil, List.append_nil]; rfl
  | cons c cs ih =>
    rw [List.flatMap_cons, decodeFrom_utf8EncodeChar, ih, List.reverse_cons, List.append_assoc,
      List.map_cons, List.singleton_append]

/-- The bytes of a text spell its characters, without fault. -/
theorem decodeAll_utf8 (s : String) : decodeAll (utf8 s) = s.toList.map some :=
  decodeFrom_flatMap s.toList []

theorem decodeLossy_utf8 (s : String) : decodeLossy (utf8 s) = s := by
  rw [decodeLossy, decodeAll_utf8, List.map_map]
  exact (congrArg String.ofList (List.map_id s.toList)).trans s.ofList_toList

end Text

theorem length_utf8 (s : String) : (utf8 s).length = s.utf8ByteSize := by
  rw [← s.size_toByteArray, ← String.utf8Encode_toList, List.utf8Encode, List.size_toByteArray]
  rfl

/-- Texts with the same bytes are the same. -/
theorem utf8_injective : Function.Injective utf8 := fun s t h => by
  rw [← Text.decodeLossy_utf8 s, h, Text.decodeLossy_utf8]

end MessagePack
