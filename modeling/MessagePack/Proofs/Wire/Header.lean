import MessagePack.Proofs.Value.Narrow
import MessagePack.Proofs.Wire.Emission
import MessagePack.Proofs.Wire.Reading
import Mathlib.Tactic.IntervalCases

/-!
# Headers read back

What the operations of an emission write for a number or for the beginning of a value, the decoder
reads back: the shortest form that the encoder picks has a marker of its own.

* `Emission.Conveys e x a`: the emission is complete and `x` reads it back as `a`.
-/

namespace MessagePack

/-! ## Markers -/

/-- The marker announces a length field, and the field a header. -/
def Announces (marker : UInt8) (width : Nat) (header : Nat → Header) : Prop :=
  ∃ tag, Tag.ofByte? marker = some tag ∧
    (readHeaderOf tag : Reading Slice Header) =
      readLength (.after width) >>= fun n => pure (header n)

/-- A header that is a single byte. -/
theorem Reads.header_of_byte {b : UInt8} {tag : Tag} {header : Header}
    (htag : Tag.ofByte? b = some tag)
    (h : (readHeaderOf tag : Reading Slice Header) = pure header) : Reads readHeader [b] header := by
  rw [readHeader_eq]
  exact (Reads.readLead htag).bind (h ▸ Reads.pure header)

/-- A marker and a length. -/
theorem Reads.header_of_marker {marker : UInt8} {width n : Nat} {header : Nat → Header}
    (h : Announces marker width header) (hn : n < 256 ^ width) :
    Reads readHeader (marker :: bigEndian width n) (header n) := by
  obtain ⟨tag, htag, hheader⟩ := h
  rw [readHeader_eq]
  exact (Reads.readLead htag).bind (hheader ▸ (Reads.readLength hn).map header)

/-- A byte that is a value. -/
theorem Reads.whole {levels : Nat} {b : UInt8} {v : Value}
    (htag : Tag.ofByte? b = some (.whole v)) : Reads (readValue (levels + 1)) [b] v := by
  rw [readValue_succ]
  exact (Reads.header_of_byte htag rfl).bind (Reads.pure v)

/-- A marker and a number of fixed width. -/
theorem Reads.scalar {levels n : Nat} {marker : UInt8} {s : Scalar}
    (htag : Tag.ofByte? marker = some (.scalar s)) (hn : n < 256 ^ s.size) :
    Reads (readValue (levels + 1)) (marker :: bigEndian s.size n) (s.ofBits n) := by
  rw [readValue_succ]
  refine (Reads.header_of_byte htag rfl).bind ?_
  have hreads := (Reads.readField (length_bigEndian s.size n)).map s.value
  rwa [Scalar.value, ofBigEndian_bigEndian, Nat.mod_eq_of_lt hn] at hreads

/-- The type byte of an extension and its payload. -/
theorem Reads.extensionBody {item : Reading Slice Value} (type : Int8) (data : Bytes) :
    Reads (readBody item (.extension data.length)) (type.toUInt8 :: data)
      (.extension type data) :=
  (Reads.readByte type.toUInt8).bind ((Reads.readPayload data).map _)

namespace Emission

/-! ## What emissions convey -/

/-- The emission is complete, and the step reads its bytes back as the result. -/
def Conveys {α : Type} (e : Emission) (x : Reading Slice α) (a : α) : Prop :=
  e.overflow = none ∧ Reads x e.bytes a

theorem Conveys.bind {α β : Type} {e e' : Emission} {x : Reading Slice α}
    {f : α → Reading Slice β} {a : α} {b : β} (h : Conveys e x a) (h' : Conveys e' (f a) b) :
    Conveys (e ++ e') (x >>= f) b := by
  refine ⟨by rw [overflow_append, h.1, h'.1, Option.none_or], ?_⟩
  rw [bytes_append h.1]
  exact h.2.bind h'.2

theorem Conveys.map {α β : Type} {e : Emission} {x : Reading Slice α} {a : α} (h : Conveys e x a)
    (f : α → β) : Conveys e (x >>= fun a => pure (f a)) (f a) := ⟨h.1, h.2.map f⟩

theorem Conveys.void {α : Type} {e : Emission} {x : Reading Slice α} {a : α} (h : Conveys e x a) :
    Conveys e x.void () := h.map fun _ => ()

theorem conveys_add {α : Type} {piece : Piece} {x : Reading Slice α} {a : α}
    (h : Reads x piece.bytes a) : Conveys (add piece empty) x a := by
  refine ⟨rfl, ?_⟩
  rw [bytes_add rfl]
  exact h

theorem conveys_put {α : Type} {bytes : Bytes} {x : Reading Slice α} {a : α}
    (h : Reads x bytes a) : Conveys (put bytes empty) x a := conveys_add h

/-! ## Headers -/

section

variable {marker8 marker16 marker32 : UInt8} {header : Nat → Header} {n : Nat}

theorem conveys_putMarked {marker : UInt8} {width : Nat} (h : Announces marker width header)
    (hn : n < 256 ^ width) : Conveys (putMarked marker width n empty) readHeader (header n) :=
  conveys_add (Reads.header_of_marker h hn)

theorem conveys_putLength16 (h16 : Announces marker16 2 header) (h32 : Announces marker32 4 header)
    (hn : n < 2 ^ 32) :
    Conveys (putLength16 marker16 marker32 n empty) readHeader (header n) := by
  unfold putLength16
  split
  · exact conveys_putMarked h16 (by omega)
  · rw [if_pos (by omega)]
    exact conveys_putMarked h32 (by omega)

theorem conveys_putLength8 (h8 : Announces marker8 1 header) (h16 : Announces marker16 2 header)
    (h32 : Announces marker32 4 header) (hn : n < 2 ^ 32) :
    Conveys (putLength8 marker8 marker16 marker32 n empty) readHeader (header n) := by
  unfold putLength8
  split
  · exact conveys_putMarked h8 (by omega)
  · exact conveys_putLength16 h16 h32 hn

theorem conveys_putStringHeader (hn : n < 2 ^ 32) :
    Conveys (putStringHeader n empty) readHeader (.string n) := by
  unfold putStringHeader
  split
  case isTrue hfix =>
    have htag : Tag.ofByte? (Marker.fixString ||| UInt8.ofNat n) = some (.string (.inTag n)) := by
      interval_cases n <;> rfl
    exact conveys_put (Reads.header_of_byte htag rfl)
  case isFalse => exact conveys_putLength8 ⟨_, rfl, rfl⟩ ⟨_, rfl, rfl⟩ ⟨_, rfl, rfl⟩ hn

theorem conveys_putBinaryHeader (hn : n < 2 ^ 32) :
    Conveys (putBinaryHeader n empty) readHeader (.binary n) :=
  conveys_putLength8 ⟨_, rfl, rfl⟩ ⟨_, rfl, rfl⟩ ⟨_, rfl, rfl⟩ hn

theorem conveys_putArrayHeader (hn : n < 2 ^ 32) :
    Conveys (putArrayHeader n empty) readHeader (.array n) := by
  unfold putArrayHeader
  split
  case isTrue hfix =>
    have htag : Tag.ofByte? (Marker.fixArray ||| UInt8.ofNat n) = some (.array (.inTag n)) := by
      interval_cases n <;> rfl
    exact conveys_put (Reads.header_of_byte htag rfl)
  case isFalse => exact conveys_putLength16 ⟨_, rfl, rfl⟩ ⟨_, rfl, rfl⟩ hn

theorem conveys_putObjectHeader (hn : n < 2 ^ 32) :
    Conveys (putObjectHeader n empty) readHeader (.object n) := by
  unfold putObjectHeader
  split
  case isTrue hfix =>
    have htag : Tag.ofByte? (Marker.fixObject ||| UInt8.ofNat n) = some (.object (.inTag n)) := by
      interval_cases n <;> rfl
    exact conveys_put (Reads.header_of_byte htag rfl)
  case isFalse => exact conveys_putLength16 ⟨_, rfl, rfl⟩ ⟨_, rfl, rfl⟩ hn

/-- The type byte of an extension comes after the header that the decoder reads. -/
theorem reads_putExtensionHeader (type : Int8) (hn : n < 2 ^ 32) :
    ∃ bs, Reads readHeader bs (.extension n) ∧
      (putExtensionHeader type n empty).overflow = none ∧
      (putExtensionHeader type n empty).bytes = bs ++ [type.toUInt8] := by
  have hfix : ∀ marker, Tag.ofByte? marker = some (.extension (.inTag n)) →
      ∃ bs, Reads readHeader bs (.extension n) ∧
        (put [marker, type.toUInt8] empty).overflow = none ∧
        (put [marker, type.toUInt8] empty).bytes = bs ++ [type.toUInt8] := fun marker htag =>
    ⟨[marker], Reads.header_of_byte htag rfl, rfl, rfl⟩
  unfold putExtensionHeader
  split
  case h_6 =>
    have hlength : Conveys (putLength8 Marker.extension8 Marker.extension16 Marker.extension32 n empty)
        readHeader (.extension n) :=
      conveys_putLength8 ⟨_, rfl, rfl⟩ ⟨_, rfl, rfl⟩ ⟨_, rfl, rfl⟩ hn
    obtain ⟨hnone, hreads⟩ := hlength
    refine ⟨_, hreads, ?_, bytes_put hnone _⟩
    rw [additive_put, overflow_append, hnone]
    rfl
  all_goals exact hfix _ rfl

end

/-! ## Numbers -/

section

variable {levels n : Nat}

/-- A number of fixed width. -/
theorem conveys_scalar {marker : UInt8} {width : Nat} (s : Scalar)
    (htag : Tag.ofByte? marker = some (.scalar s)) (hwidth : width = s.size)
    (hn : n < 256 ^ width) :
    Conveys (putMarked marker width n empty) (readValue (levels + 1)) (s.ofBits n) := by
  subst hwidth
  exact conveys_add (Reads.scalar htag hn)

/-- A byte that is a value. -/
theorem conveys_whole {b : UInt8} {v : Value} (htag : Tag.ofByte? b = some (.whole v)) :
    Conveys (put [b] empty) (readValue (levels + 1)) v := conveys_put (Reads.whole htag)

theorem conveys_putUnsigned (hn : n < 2 ^ 64) :
    Conveys (putUnsigned n empty) (readValue (levels + 1)) (Value.narrowInt n) := by
  rw [Value.narrowInt_natCast]
  unfold putUnsigned
  split
  case isTrue hfix =>
    rw [if_pos (by omega)]
    refine conveys_whole ?_
    have hbyte : UInt8.ofNat n < Marker.fixObject := by
      rw [UInt8.lt_iff_toNat_lt, UInt8.toNat_ofNat_of_lt' (show n < 2 ^ 8 by omega)]
      exact hfix
    rw [Tag.ofByte?, if_pos hbyte]
  case isFalse =>
    split_ifs
    · exact conveys_scalar .uint8 rfl rfl (by omega)
    · exact conveys_scalar .uint16 rfl rfl (by omega)
    · exact conveys_scalar .uint32 rfl rfl (by omega)
    · exact conveys_scalar .uint64 rfl rfl (by omega)

/-- The byte of a small negative integer. -/
theorem ofByte?_of_neg {b : UInt8} (h : 0xe0 ≤ b) :
    Tag.ofByte? b = some (.whole (.int8 b.toInt8)) := by
  have hnot : ∀ m ≤ 0xe0, ¬b < m := fun m hm => UInt8.not_lt.2 (UInt8.le_trans hm h)
  unfold Tag.ofByte?
  rw [if_neg (hnot _ (by decide)), if_neg (hnot _ (by decide)), if_neg (hnot _ (by decide)),
    if_neg (hnot _ (by decide)), if_neg (hnot _ (by decide))]

/-- An integer comes back in its narrowest width. -/
theorem conveys_putInt {i : Int} (hmin : -2 ^ 63 ≤ i) (hmax : i < 2 ^ 64) :
    Conveys (putInt i empty) (readValue (levels + 1)) (Value.narrowInt i) := by
  unfold putInt
  split
  case isTrue h0 =>
    have h : Conveys (putUnsigned i.toNat empty) (readValue (levels + 1))
        (Value.narrowInt i.toNat) := conveys_putUnsigned (by omega)
    rwa [Int.toNat_of_nonneg h0] at h
  case isFalse h0 =>
    unfold Value.narrowInt
    rw [if_neg h0]
    split
    case isTrue hfix =>
      have h8 : (UInt8.ofNat (i + 0x100).toNat).toInt8 = Int8.ofInt i :=
        congrArg Int8.ofBitVec (Value.ofNat_add_two_pow (by omega))
      rw [if_pos (by omega), ← h8]
      refine conveys_whole (ofByte?_of_neg ?_)
      have hbyte : (UInt8.ofNat (i + 0x100).toNat).toNat = (i + 0x100).toNat :=
        UInt8.toNat_ofNat_of_lt' (show (i + 0x100).toNat < 2 ^ 8 by omega)
      rw [UInt8.le_iff_toNat_le, hbyte]
      show 0xe0 ≤ (i + 0x100).toNat
      omega
    case isFalse =>
      split_ifs with h7 h15 h31
      · have hbits : (UInt8.ofNat (i + 0x100).toNat).toInt8 = Int8.ofInt i :=
          congrArg Int8.ofBitVec (Value.ofNat_add_two_pow (by omega))
        rw [← hbits]
        exact conveys_scalar .int8 rfl rfl (by omega)
      · have hbits : (UInt16.ofNat (i + 0x10000).toNat).toInt16 = Int16.ofInt i :=
          congrArg Int16.ofBitVec (Value.ofNat_add_two_pow (by omega))
        rw [← hbits]
        exact conveys_scalar .int16 rfl rfl (by omega)
      · have hbits : (UInt32.ofNat (i + 0x100000000).toNat).toInt32 = Int32.ofInt i :=
          congrArg Int32.ofBitVec (Value.ofNat_add_two_pow (by omega))
        rw [← hbits]
        exact conveys_scalar .int32 rfl rfl (by omega)
      · have hbits : (UInt64.ofNat (i + 0x10000000000000000).toNat).toInt64 = Int64.ofInt i :=
          congrArg Int64.ofBitVec (Value.ofNat_add_two_pow (by omega))
        rw [← hbits]
        exact conveys_scalar .int64 rfl rfl (by omega)

end

end Emission

end MessagePack
