import MessagePack.Text.Utf8
import MessagePack.Value.Basic
import MessagePack.Value.Order

/-!
# Looking into values

Numeric values are read as any other numeric type. Integers wrap to the width asked for, floats
are cut toward zero and brought into its range, and what is not a number gives zero, as do values
that are not numeric. Integers become the nearest float, ties to even.

A question that does not fit a value has an empty answer, and a look-up that finds nothing answers
nil. A shape lists fields with the kind each has to have, and an absent field counts as nil.
-/

namespace MessagePack.Value

/-! ## Numbers as other numbers -/

/-- The integer nearest to a numeric value toward zero: a float is brought into `low … high`, an
integer is left as it is. -/
def integer (low high : Int) : Value → Int
  | float32 x => FloatFormat.binary32.truncate low high x.bits.toNat
  | float64 x => FloatFormat.binary64.truncate low high x.bits.toNat
  | v => v.int?.getD 0

/-- A numeric value as an `Int8`. -/
def toInt8 (v : Value) : Int8 := Int8.ofInt (v.integer (-0x80) 0x7f)

/-- A numeric value as an `Int16`. -/
def toInt16 (v : Value) : Int16 := Int16.ofInt (v.integer (-0x8000) 0x7fff)

/-- A numeric value as an `Int32`. -/
def toInt32 (v : Value) : Int32 := Int32.ofInt (v.integer (-0x80000000) 0x7fffffff)

/-- A numeric value as an `Int64`. -/
def toInt64 (v : Value) : Int64 := Int64.ofInt (v.integer (-0x8000000000000000) 0x7fffffffffffffff)

/-- A numeric value as a `UInt8`. -/
def toUInt8 (v : Value) : UInt8 := .ofBitVec (.ofInt 8 (v.integer 0 0xff))

/-- A numeric value as a `UInt16`. -/
def toUInt16 (v : Value) : UInt16 := .ofBitVec (.ofInt 16 (v.integer 0 0xffff))

/-- A numeric value as a `UInt32`. -/
def toUInt32 (v : Value) : UInt32 := .ofBitVec (.ofInt 32 (v.integer 0 0xffffffff))

/-- A numeric value as a `UInt64`. -/
def toUInt64 (v : Value) : UInt64 := .ofBitVec (.ofInt 64 (v.integer 0 0xffffffffffffffff))

/-- A numeric value in single precision. -/
def toBinary32 : Value → Binary32
  | float32 x => x
  | float64 x => x.narrow
  | v => .ofInt (v.int?.getD 0)

/-- A numeric value in double precision. -/
def toBinary64 : Value → Binary64
  | float32 x => x.widen
  | float64 x => x
  | v => .ofInt (v.int?.getD 0)

/-! ## Contents -/

/-- Whether a value is nil. -/
def isNil (v : Value) : Bool := v.kind == .nil

/-- Whether a value is a boolean. -/
def isBool (v : Value) : Bool := v.kind == .bool

/-- Whether a value is an integer or a float. -/
def isNumber (v : Value) : Bool := v.kind.isNumber

/-- Whether a value is an integer of any width. -/
def isInt (v : Value) : Bool := v.kind.isInt

/-- Whether a value is a string. -/
def isString (v : Value) : Bool := v.kind == .string

/-- Whether a value is a binary. -/
def isBinary (v : Value) : Bool := v.kind == .binary

/-- Whether a value is an array. -/
def isArray (v : Value) : Bool := v.kind == .array

/-- Whether a value is an object. -/
def isObject (v : Value) : Bool := v.kind == .object

/-- Whether a value is an extension. -/
def isExtension (v : Value) : Bool := v.kind == .extension

/-- The boolean of a boolean value. -/
def boolValue : Value → Bool
  | bool b => b
  | _ => false

/-- The bytes of a string. -/
def stringBytes : Value → Bytes
  | string bytes => bytes
  | _ => []

/-- The text of a string whose bytes are UTF-8, and the empty text otherwise. -/
def textValue (v : Value) : String := (Text.decode? v.stringBytes).getD ""

/-- The bytes of a binary. -/
def binaryBytes : Value → Bytes
  | binary bytes => bytes
  | _ => []

/-- The items of an array. -/
def items : Value → List Value
  | array items => items
  | _ => []

/-- The entries of an object, in key order. -/
def entries : Value → List (Value × Value)
  | object entries => entries
  | _ => []

/-- The type and the payload of an extension. -/
def extensionParts : Value → Int8 × Bytes
  | extension type data => (type, data)
  | _ => (0, [])

/-- The number of items or entries. -/
def length : Value → Nat
  | array items => items.length
  | object entries => entries.length
  | _ => 0

/-- Whether a value has no items and no entries. -/
def isEmpty (v : Value) : Bool := v.length == 0

/-- The item of an array at a place. -/
def item (v : Value) (index : Nat) : Value := v.items[index]?.getD nil

/-- The value of an object under a key equal to the given one. -/
def get (v : Value) (key : Value) : Value := (SortedEntries.find? cmp key v.entries).getD nil

/-- The value of an object under a text. -/
def field (v : Value) (name : String) : Value := v.get (text name)

end MessagePack.Value

namespace MessagePack

/-! ## Shapes -/

/-- Why a value does not have a shape. -/
inductive ShapeError where
  | notAnObject
  | badKind (field : String) (expected found : Kind)
deriving DecidableEq

/-- The text of a shape error. -/
def ShapeError.message : ShapeError → String
  | notAnObject => "expected MessagePack object"
  | badKind field expected found =>
    "bad type for field \x60" ++ field ++ "\x60: expected " ++ expected.name ++ ", found "
      ++ found.name

namespace Value

/-- Looks for the first field of another kind than the shape says. -/
def checkFields (v : Value) : List (String × Kind) → Except ShapeError Unit
  | [] => .ok ()
  | (field, expected) :: shape =>
    let found := (v.field field).kind
    if found = expected then v.checkFields shape else .error (.badKind field expected found)

/-- Whether a value is an object whose listed fields have the listed kinds. -/
def checkShape (v : Value) (shape : List (String × Kind)) : Except ShapeError Unit :=
  if v.isObject then v.checkFields shape else .error .notAnObject

end Value

end MessagePack
