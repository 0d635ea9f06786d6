import MessagePack.Bytes
import MessagePack.Number.Comparison

/-!
# Values

A MessagePack datum. Integers and floats keep the width they were written with, strings are byte
strings that need not be UTF-8, and an object is a list of entries in strictly ascending key order.
Its kind has a one-byte code whose two low bits say whether it is a number and whether it is an
integer.

The order of keys is that of values, which is defined by recursion over finished values, so the
constructor cannot ask for it. It is `Value.Ordered`, which whatever builds objects keeps:
`Value.ofPairs` and decoding.
-/

namespace MessagePack

/-! ## Kinds -/

/-- What a value is. -/
inductive Kind where
  | nil
  | float32
  | float64
  | int8
  | int16
  | int32
  | int64
  | uint8
  | uint16
  | uint32
  | uint64
  | bool
  | string
  | binary
  | array
  | object
  | extension
deriving DecidableEq, Repr, Inhabited

namespace Kind

/-- Every kind, in the order of the codes. -/
def all : List Kind :=
  [nil, float32, float64, int8, int16, int32, int64, uint8, uint16, uint32, uint64, bool, string,
    binary, array, object, extension]

/-- The place of a kind in `all`, counted from one. -/
def index : Kind → UInt8
  | nil => 1
  | float32 => 2
  | float64 => 3
  | int8 => 4
  | int16 => 5
  | int32 => 6
  | int64 => 7
  | uint8 => 8
  | uint16 => 9
  | uint32 => 10
  | uint64 => 11
  | bool => 12
  | string => 13
  | binary => 14
  | array => 15
  | object => 16
  | extension => 17

/-- The low bits of the code: `01` for floats, `11` for integers, `00` for the rest. -/
def flags : Kind → UInt8
  | float32 | float64 => 1
  | int8 | int16 | int32 | int64 | uint8 | uint16 | uint32 | uint64 => 3
  | _ => 0

/-- The one-byte code of a kind: its index above its two flag bits. -/
def code (k : Kind) : UInt8 := k.index <<< 2 ||| k.flags

/-- Integers and floats. -/
def isNumber (k : Kind) : Bool := k.code &&& 1 == 1

/-- Integers of any width and sign. -/
def isInt (k : Kind) : Bool := k.code &&& 3 == 3

/-- Floats of either width. -/
def isFloat (k : Kind) : Bool := k.isNumber && !k.isInt

/-- The place of a kind in the order of values. All numbers share one. -/
def rank : Kind → Nat
  | nil => 0
  | bool => 2
  | string => 3
  | binary => 4
  | array => 5
  | object => 6
  | extension => 7
  | _ => 1

/-- The name of a kind in messages. -/
def name : Kind → String
  | nil => "nil"
  | float32 => "float32"
  | float64 => "float64"
  | int8 => "int8"
  | int16 => "int16"
  | int32 => "int32"
  | int64 => "int64"
  | uint8 => "uint8"
  | uint16 => "uint16"
  | uint32 => "uint32"
  | uint64 => "uint64"
  | bool => "bool"
  | string => "string"
  | binary => "binary"
  | array => "array"
  | object => "object"
  | extension => "extension"

/-- The kind of a given name. -/
def ofName? (name : String) : Option Kind := all.find? (·.name == name)

end Kind

/-! ## Values -/

/-- One MessagePack datum. -/
inductive Value where
  | nil
  | bool (b : Bool)
  | float32 (x : Binary32)
  | float64 (x : Binary64)
  | int8 (i : Int8)
  | int16 (i : Int16)
  | int32 (i : Int32)
  | int64 (i : Int64)
  | uint8 (n : UInt8)
  | uint16 (n : UInt16)
  | uint32 (n : UInt32)
  | uint64 (n : UInt64)
  /-- The bytes of a string as they are on the wire. -/
  | string (bytes : Bytes)
  | binary (bytes : Bytes)
  | array (items : List Value)
  /-- Keys and values, in ascending order of the keys. -/
  | object (entries : List (Value × Value))
  /-- An application type and its payload. -/
  | extension (type : Int8) (data : Bytes)
deriving Inhabited

namespace Value

/-- What a value is. -/
def kind : Value → Kind
  | nil => .nil
  | bool _ => .bool
  | float32 _ => .float32
  | float64 _ => .float64
  | int8 _ => .int8
  | int16 _ => .int16
  | int32 _ => .int32
  | int64 _ => .int64
  | uint8 _ => .uint8
  | uint16 _ => .uint16
  | uint32 _ => .uint32
  | uint64 _ => .uint64
  | string _ => .string
  | binary _ => .binary
  | array _ => .array
  | object _ => .object
  | extension .. => .extension

/-- The integer that an integer value of any width holds. -/
def int? : Value → Option Int
  | int8 i => some i.toInt
  | int16 i => some i.toInt
  | int32 i => some i.toInt
  | int64 i => some i.toInt
  | uint8 n => some n.toNat
  | uint16 n => some n.toNat
  | uint32 n => some n.toNat
  | uint64 n => some n.toNat
  | _ => none

/-- A numeric value as it is compared. -/
def number? : Value → Option Numeral
  | float32 x => some (.double x.widen)
  | float64 x => some (.double x)
  | v => v.int?.map .int

end Value

end MessagePack
