import MessagePack.Value.Basic
import MessagePack.Wire.Tag

/-!
# Encoding

The canonical encoding: every number and every length is written in the shortest form that can hold
it, and object entries in key order. What an encoding produces is a sequence of pieces, each
of them plain bytes or a number behind its marker; a length of more than 32 bits ends it.

* `Emission.ofValue`, `encode`: the encoding of a value.
-/

namespace MessagePack

/-- A length that does not fit in 32 bits. -/
structure LengthOverflow where
  length : Nat
deriving DecidableEq

/-- The text of a length overflow. -/
def LengthOverflow.message (e : LengthOverflow) : String :=
  "length " ++ toString e.length ++ " does not fit in a 32-bit MessagePack length field"

/-- What an encoding adds at once. Where it goes decides in how many writes. -/
inductive Piece where
  /-- Bytes as they are. -/
  | plain (bytes : Bytes)
  /-- A marker byte and a number of `width` bytes after it. -/
  | marked (marker : UInt8) (width n : Nat)
deriving DecidableEq

/-- The bytes of a piece. -/
def Piece.bytes : Piece → Bytes
  | plain bytes => bytes
  | marked marker width n => marker :: bigEndian width n

/-- What encoding has produced so far. -/
structure Emission where
  /-- The pieces, latest first. -/
  pieces : List Piece
  /-- The length that did not fit. Nothing comes after it. -/
  overflow : Option LengthOverflow
deriving DecidableEq

namespace Emission

/-- Nothing yet. -/
def empty : Emission := ⟨[], none⟩

/-- The bytes of all pieces in order. -/
def bytes (e : Emission) : Bytes := e.pieces.reverse.flatMap Piece.bytes

/-- Adds a piece, unless a length has overflowed. -/
def add (piece : Piece) (e : Emission) : Emission :=
  match e.overflow with
  | none => { e with pieces := piece :: e.pieces }
  | some _ => e

/-- Adds bytes as they are. -/
def put (bytes : Bytes) (e : Emission) : Emission := e.add (.plain bytes)

/-- Records that a length does not fit, unless one has overflowed before. -/
def refuse (length : Nat) (e : Emission) : Emission :=
  match e.overflow with
  | none => { e with overflow := some ⟨length⟩ }
  | some _ => e

/-- Adds a marker byte and a number of `width` bytes after it, in one piece. -/
def putMarked (marker : UInt8) (width n : Nat) (e : Emission) : Emission :=
  e.add (.marked marker width n)

theorem bytes_add {e : Emission} (h : e.overflow = none) (piece : Piece) :
    (e.add piece).bytes = e.bytes ++ piece.bytes := by
  simp [add, bytes, h]

theorem bytes_put {e : Emission} (h : e.overflow = none) (bytes : Bytes) :
    (e.put bytes).bytes = e.bytes ++ bytes := bytes_add h (.plain bytes)

/-! ## Integers -/

/-- Adds a nonnegative integer below `2 ^ 64`. -/
def putUnsigned (n : Nat) (e : Emission) : Emission :=
  if n < 0x80 then e.put [UInt8.ofNat n]
  else if n < 0x100 then e.putMarked Marker.uint8 1 n
  else if n < 0x10000 then e.putMarked Marker.uint16 2 n
  else if n < 0x100000000 then e.putMarked Marker.uint32 4 n
  else e.putMarked Marker.uint64 8 n

/-- Adds an integer from `-2 ^ 63` up to `2 ^ 64 - 1`. Negative ones are written in two's
complement. -/
def putInt (i : Int) (e : Emission) : Emission :=
  if 0 ≤ i then e.putUnsigned i.toNat
  else if -0x20 ≤ i then e.put [UInt8.ofNat (i + 0x100).toNat]
  else if -0x80 ≤ i then e.putMarked Marker.int8 1 (i + 0x100).toNat
  else if -0x8000 ≤ i then e.putMarked Marker.int16 2 (i + 0x10000).toNat
  else if -0x80000000 ≤ i then e.putMarked Marker.int32 4 (i + 0x100000000).toNat
  else e.putMarked Marker.int64 8 (i + 0x10000000000000000).toNat

/-! ## Headers -/

/-- Adds a length of two or four bytes. -/
def putLength16 (marker16 marker32 : UInt8) (length : Nat) (e : Emission) : Emission :=
  if length < 0x10000 then e.putMarked marker16 2 length
  else if length < 0x100000000 then e.putMarked marker32 4 length
  else e.refuse length

/-- Adds a length of one, two or four bytes. -/
def putLength8 (marker8 marker16 marker32 : UInt8) (length : Nat) (e : Emission) : Emission :=
  if length < 0x100 then e.putMarked marker8 1 length
  else e.putLength16 marker16 marker32 length

/-- Adds the header of a string. -/
def putStringHeader (length : Nat) (e : Emission) : Emission :=
  if length < 0x20 then e.put [Marker.fixString ||| UInt8.ofNat length]
  else e.putLength8 Marker.string8 Marker.string16 Marker.string32 length

/-- Adds the header of a binary. -/
def putBinaryHeader (length : Nat) (e : Emission) : Emission :=
  e.putLength8 Marker.binary8 Marker.binary16 Marker.binary32 length

/-- Adds the header of an array. -/
def putArrayHeader (length : Nat) (e : Emission) : Emission :=
  if length < 0x10 then e.put [Marker.fixArray ||| UInt8.ofNat length]
  else e.putLength16 Marker.array16 Marker.array32 length

/-- Adds the header of an object. -/
def putObjectHeader (length : Nat) (e : Emission) : Emission :=
  if length < 0x10 then e.put [Marker.fixObject ||| UInt8.ofNat length]
  else e.putLength16 Marker.object16 Marker.object32 length

/-- Adds the header of an extension, type byte included. Five lengths have a marker of their own. -/
def putExtensionHeader (type : Int8) (length : Nat) (e : Emission) : Emission :=
  match length with
  | 1 => e.put [Marker.fixExtension1, type.toUInt8]
  | 2 => e.put [Marker.fixExtension2, type.toUInt8]
  | 4 => e.put [Marker.fixExtension4, type.toUInt8]
  | 8 => e.put [Marker.fixExtension8, type.toUInt8]
  | 16 => e.put [Marker.fixExtension16, type.toUInt8]
  | length =>
    (e.putLength8 Marker.extension8 Marker.extension16 Marker.extension32 length).put [type.toUInt8]

/-! ## Values -/

mutual

/-- Adds a value. -/
def putValue : Value → Emission → Emission
  | .nil, e => e.put [Marker.nil]
  | .bool b, e => e.put [if b then Marker.yes else Marker.no]
  | .float32 x, e => e.putMarked Marker.float32 4 x.bits.toNat
  | .float64 x, e => e.putMarked Marker.float64 8 x.bits.toNat
  | .int8 i, e => e.putInt i.toInt
  | .int16 i, e => e.putInt i.toInt
  | .int32 i, e => e.putInt i.toInt
  | .int64 i, e => e.putInt i.toInt
  | .uint8 n, e => e.putUnsigned n.toNat
  | .uint16 n, e => e.putUnsigned n.toNat
  | .uint32 n, e => e.putUnsigned n.toNat
  | .uint64 n, e => e.putUnsigned n.toNat
  | .string bytes, e => (e.putStringHeader bytes.length).put bytes
  | .binary bytes, e => (e.putBinaryHeader bytes.length).put bytes
  | .array items, e => putItems items (e.putArrayHeader items.length)
  | .object entries, e => putEntries entries (e.putObjectHeader entries.length)
  | .extension type data, e => (e.putExtensionHeader type data.length).put data

/-- Adds values one after the other. -/
def putItems : List Value → Emission → Emission
  | [], e => e
  | v :: vs, e => putItems vs (putValue v e)

/-- Adds entries one after the other, each key before its value. -/
def putEntries : List (Value × Value) → Emission → Emission
  | [], e => e
  | (k, v) :: es, e => putEntries es (putValue v (putValue k e))

end

/-- What encoding a value produces. -/
def ofValue (v : Value) : Emission := putValue v empty

/-- Whether an emission is complete. -/
def status (e : Emission) : Except LengthOverflow Unit :=
  match e.overflow with
  | none => .ok ()
  | some overflow => .error overflow

end Emission

/-- The encoding of a value, or the first length in it that does not fit. -/
def encode (v : Value) : Except LengthOverflow Bytes :=
  let e := Emission.ofValue v
  match e.status with
  | .ok () => .ok e.bytes
  | .error overflow => .error overflow

end MessagePack
