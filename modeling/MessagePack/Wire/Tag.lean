import MessagePack.Bytes
import MessagePack.Value.Basic

/-!
# First bytes

What the first byte of an encoded value announces: its tag, for building the value, and its span,
for passing over it. A span says how far the value reaches as far as the byte tells; what the value
is does not matter for that, only the bytes and the values that belong to it.
-/

namespace MessagePack.Marker

/-! ## Marker bytes -/

/-- An object of at most 15 entries, their number in the low four bits. -/
@[match_pattern] abbrev fixObject : UInt8 := 0x80
/-- An array of at most 15 items, their number in the low four bits. -/
@[match_pattern] abbrev fixArray : UInt8 := 0x90
/-- A string of at most 31 bytes, their number in the low five bits. -/
@[match_pattern] abbrev fixString : UInt8 := 0xa0
@[match_pattern] abbrev nil : UInt8 := 0xc0
@[match_pattern] abbrev no : UInt8 := 0xc2
@[match_pattern] abbrev yes : UInt8 := 0xc3
@[match_pattern] abbrev binary8 : UInt8 := 0xc4
@[match_pattern] abbrev binary16 : UInt8 := 0xc5
@[match_pattern] abbrev binary32 : UInt8 := 0xc6
@[match_pattern] abbrev extension8 : UInt8 := 0xc7
@[match_pattern] abbrev extension16 : UInt8 := 0xc8
@[match_pattern] abbrev extension32 : UInt8 := 0xc9
@[match_pattern] abbrev float32 : UInt8 := 0xca
@[match_pattern] abbrev float64 : UInt8 := 0xcb
@[match_pattern] abbrev uint8 : UInt8 := 0xcc
@[match_pattern] abbrev uint16 : UInt8 := 0xcd
@[match_pattern] abbrev uint32 : UInt8 := 0xce
@[match_pattern] abbrev uint64 : UInt8 := 0xcf
@[match_pattern] abbrev int8 : UInt8 := 0xd0
@[match_pattern] abbrev int16 : UInt8 := 0xd1
@[match_pattern] abbrev int32 : UInt8 := 0xd2
@[match_pattern] abbrev int64 : UInt8 := 0xd3
@[match_pattern] abbrev fixExtension1 : UInt8 := 0xd4
@[match_pattern] abbrev fixExtension2 : UInt8 := 0xd5
@[match_pattern] abbrev fixExtension4 : UInt8 := 0xd6
@[match_pattern] abbrev fixExtension8 : UInt8 := 0xd7
@[match_pattern] abbrev fixExtension16 : UInt8 := 0xd8
@[match_pattern] abbrev string8 : UInt8 := 0xd9
@[match_pattern] abbrev string16 : UInt8 := 0xda
@[match_pattern] abbrev string32 : UInt8 := 0xdb
@[match_pattern] abbrev array16 : UInt8 := 0xdc
@[match_pattern] abbrev array32 : UInt8 := 0xdd
@[match_pattern] abbrev object16 : UInt8 := 0xde
@[match_pattern] abbrev object32 : UInt8 := 0xdf

end MessagePack.Marker

namespace MessagePack

/-! ## Numbers of fixed width -/

/-- A kind of number. -/
inductive Scalar where
  | float32
  | float64
  | uint8
  | uint16
  | uint32
  | uint64
  | int8
  | int16
  | int32
  | int64
deriving DecidableEq

namespace Scalar

/-- The number of bytes. -/
def size : Scalar → Nat
  | uint8 | int8 => 1
  | uint16 | int16 => 2
  | float32 | uint32 | int32 => 4
  | float64 | uint64 | int64 => 8

/-- The value of that kind whose bits are a number below `2 ^ (8 * size)`. -/
def ofBits (bits : Nat) : Scalar → Value
  | float32 => .float32 (.ofBits bits)
  | float64 => .float64 (.ofBits bits)
  | uint8 => .uint8 (UInt8.ofNat bits)
  | uint16 => .uint16 (UInt16.ofNat bits)
  | uint32 => .uint32 (UInt32.ofNat bits)
  | uint64 => .uint64 (UInt64.ofNat bits)
  | int8 => .int8 (UInt8.ofNat bits).toInt8
  | int16 => .int16 (UInt16.ofNat bits).toInt16
  | int32 => .int32 (UInt32.ofNat bits).toInt32
  | int64 => .int64 (UInt64.ofNat bits).toInt64

/-- The value with the given big-endian bytes. -/
def value (s : Scalar) (bs : Bytes) : Value := s.ofBits (ofBigEndian bs)

end Scalar

/-- Takes a number of fixed width. -/
def Slice.scalar (kind : Scalar) (s : Slice) : Except ShortRead Value × Slice :=
  match s.read kind.size with
  | (.ok bs, s) => (.ok (kind.value bs), s)
  | (.error e, s) => (.error e, s)

/-! ## Tags -/

/-- Where a length is: in the tag itself, or in a big-endian field of some bytes after it. -/
inductive LengthField where
  | inTag (n : Nat)
  | after (width : Nat)
deriving DecidableEq

/-- What the first byte of an encoded value announces. -/
inductive Tag where
  /-- The value itself; nothing follows. -/
  | whole (v : Value)
  /-- The bytes of a number. -/
  | scalar (s : Scalar)
  /-- A length and so many bytes. -/
  | string (length : LengthField)
  | binary (length : LengthField)
  /-- A length, a type byte and so many bytes. -/
  | extension (length : LengthField)
  /-- A length and so many values. -/
  | array (length : LengthField)
  /-- A length and so many pairs of values. -/
  | object (length : LengthField)

namespace Tag

/-- The tag of a byte from `0xc0` to `0xdf`, of which one has none. -/
def ofMarker? : UInt8 → Option Tag
  | Marker.nil => some (whole .nil)
  | Marker.no => some (whole (.bool false))
  | Marker.yes => some (whole (.bool true))
  | Marker.binary8 => some (binary (.after 1))
  | Marker.binary16 => some (binary (.after 2))
  | Marker.binary32 => some (binary (.after 4))
  | Marker.extension8 => some (extension (.after 1))
  | Marker.extension16 => some (extension (.after 2))
  | Marker.extension32 => some (extension (.after 4))
  | Marker.float32 => some (scalar .float32)
  | Marker.float64 => some (scalar .float64)
  | Marker.uint8 => some (scalar .uint8)
  | Marker.uint16 => some (scalar .uint16)
  | Marker.uint32 => some (scalar .uint32)
  | Marker.uint64 => some (scalar .uint64)
  | Marker.int8 => some (scalar .int8)
  | Marker.int16 => some (scalar .int16)
  | Marker.int32 => some (scalar .int32)
  | Marker.int64 => some (scalar .int64)
  | Marker.fixExtension1 => some (extension (.inTag 1))
  | Marker.fixExtension2 => some (extension (.inTag 2))
  | Marker.fixExtension4 => some (extension (.inTag 4))
  | Marker.fixExtension8 => some (extension (.inTag 8))
  | Marker.fixExtension16 => some (extension (.inTag 16))
  | Marker.string8 => some (string (.after 1))
  | Marker.string16 => some (string (.after 2))
  | Marker.string32 => some (string (.after 4))
  | Marker.array16 => some (array (.after 2))
  | Marker.array32 => some (array (.after 4))
  | Marker.object16 => some (object (.after 2))
  | Marker.object32 => some (object (.after 4))
  | _ => none

/-- The tag of a byte. The lowest 128 bytes and the highest 32 are small integers. -/
def ofByte? (b : UInt8) : Option Tag :=
  if b < Marker.fixObject then some (whole (.uint8 b))
  else if b < Marker.fixArray then some (object (.inTag (b &&& 0x0f).toNat))
  else if b < Marker.fixString then some (array (.inTag (b &&& 0x0f).toNat))
  else if b < Marker.nil then some (string (.inTag (b &&& 0x1f).toNat))
  else if b < 0xe0 then ofMarker? b
  else some (whole (.int8 b.toInt8))

end Tag

/-! ## Spans -/

/-- What a value consists of after its header: bytes, and then values. -/
structure Extent where
  payload : Nat
  children : Nat
deriving DecidableEq

/-- What the first byte of an encoded value says about what follows. -/
inductive Span where
  /-- All there is to know. -/
  | fixed (extent : Extent)
  /-- A length of some bytes, and as many bytes. -/
  | payload (width : Nat)
  /-- A length, a type byte and as many bytes. -/
  | extension (length : LengthField)
  /-- A length of some bytes, and as many values. -/
  | items (width : Nat)
  /-- A length of some bytes, and as many pairs of values. -/
  | pairs (width : Nat)
deriving DecidableEq

namespace Span

/-- The span of a byte from `0xc0` to `0xdf`, of which one has none. -/
def ofMarker? : UInt8 → Option Span
  | Marker.nil | Marker.no | Marker.yes => some (fixed ⟨0, 0⟩)
  | Marker.binary8 | Marker.string8 => some (payload 1)
  | Marker.binary16 | Marker.string16 => some (payload 2)
  | Marker.binary32 | Marker.string32 => some (payload 4)
  | Marker.extension8 => some (extension (.after 1))
  | Marker.extension16 => some (extension (.after 2))
  | Marker.extension32 => some (extension (.after 4))
  | Marker.uint8 | Marker.int8 => some (fixed ⟨1, 0⟩)
  | Marker.uint16 | Marker.int16 => some (fixed ⟨2, 0⟩)
  | Marker.float32 | Marker.uint32 | Marker.int32 => some (fixed ⟨4, 0⟩)
  | Marker.float64 | Marker.uint64 | Marker.int64 => some (fixed ⟨8, 0⟩)
  | Marker.fixExtension1 => some (extension (.inTag 1))
  | Marker.fixExtension2 => some (extension (.inTag 2))
  | Marker.fixExtension4 => some (extension (.inTag 4))
  | Marker.fixExtension8 => some (extension (.inTag 8))
  | Marker.fixExtension16 => some (extension (.inTag 16))
  | Marker.array16 => some (items 2)
  | Marker.array32 => some (items 4)
  | Marker.object16 => some (pairs 2)
  | Marker.object32 => some (pairs 4)
  | _ => none

/-- The span of a byte. Small integers stand alone. -/
def ofByte? (b : UInt8) : Option Span :=
  if b < Marker.fixObject ∨ 0xe0 ≤ b then some (fixed ⟨0, 0⟩)
  else if b < Marker.fixArray then some (fixed ⟨0, 2 * (b &&& 0x0f).toNat⟩)
  else if b < Marker.fixString then some (fixed ⟨0, (b &&& 0x0f).toNat⟩)
  else if b < Marker.nil then some (fixed ⟨(b &&& 0x1f).toNat, 0⟩)
  else ofMarker? b

end Span

end MessagePack
