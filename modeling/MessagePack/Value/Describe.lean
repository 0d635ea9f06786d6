import MessagePack.Number.Decimal
import MessagePack.Text.Quoted
import MessagePack.Text.Utf8
import MessagePack.Value.Basic

/-!
# Descriptions of values

The text that shows a value with its kind and width: `UInt8(7)`, `String("a")`, `[Nil, Bool(true)]`,
`{Int8(-1): Float64(1.5)}`. A description is one line, or, when spread, has every part on a line
of its own, indented by four spaces a level and followed by a comma.

* `Value.describe`: the description in either style.
* `describedFloats`: how floats appear in it.
-/

namespace MessagePack

/-- Descriptions write magnitudes from `1e-4` up to `1e16` positionally, leave the plus sign out of
exponents, and take the larger of two equally near decimals. -/
def describedFloats : DecimalLayout := ⟨-4, 16, false, .awayFromZero⟩

/-- The text of a float in a description. -/
def describeFloat (f : FloatFormat) (bits : Nat) : String :=
  match f.magnitude bits with
  | .finite significand shift =>
    String.ofList (describedFloats.finite f (f.isNegative bits) significand shift)
  | .infinite => if f.isNegative bits then "-inf" else "inf"
  | .nan _ => "NaN"

/-- The layout of a description: on one line, or spread with a level of indentation. -/
inductive DescriptionStyle where
  | line
  | spread (level : Nat)

namespace DescriptionStyle

/-- The style of the parts of a group. -/
def inner : DescriptionStyle → DescriptionStyle
  | line => line
  | spread level => spread (level + 1)

/-- The spaces at the beginning of a line. -/
def indent : DescriptionStyle → String
  | line => ""
  | spread level => String.ofList (List.replicate (4 * level) ' ')

/-- What stands before a part of a group in this style. -/
def beforePart (style : DescriptionStyle) (first : Bool) : String :=
  match style with
  | line => if first then "" else ", "
  | spread _ => (if first then "\n" else "") ++ style.inner.indent

/-- What stands after a part. -/
def afterPart : DescriptionStyle → String
  | line => ""
  | spread _ => ",\n"

/-- What stands before the closing bracket. -/
def beforeClose (style : DescriptionStyle) (empty : Bool) : String :=
  if empty then "" else style.indent

/-- Appends the parts of a list of finished texts. -/
def addParts (style : DescriptionStyle) (first : Bool) : List String → String → String
  | [], out => out
  | part :: parts, out =>
    style.addParts false parts (out ++ style.beforePart first ++ part ++ style.afterPart)

/-- Appends a group of finished texts between its brackets. -/
def addGroup (style : DescriptionStyle) (opening closing : String) (parts : List String)
    (out : String) : String :=
  style.addParts true parts (out ++ opening) ++ style.beforeClose parts.isEmpty ++ closing

/-- Bytes as a list of numbers. -/
def bytes (style : DescriptionStyle) (bs : Bytes) : String :=
  style.addGroup "[" "]" (bs.map fun b => toString b.toNat) ""

end DescriptionStyle

namespace Value

/-- The name and the described contents of a value that is neither an array nor an object. -/
def describedParts (style : DescriptionStyle) : Value → String × List String
  | nil => ("Nil", [])
  | bool b => ("Bool", [if b then "true" else "false"])
  | float32 x => ("Float32", [describeFloat .binary32 x.bits.toNat])
  | float64 x => ("Float64", [describeFloat .binary64 x.bits.toNat])
  | int8 i => ("Int8", [toString i.toInt])
  | int16 i => ("Int16", [toString i.toInt])
  | int32 i => ("Int32", [toString i.toInt])
  | int64 i => ("Int64", [toString i.toInt])
  | uint8 n => ("UInt8", [toString n.toNat])
  | uint16 n => ("UInt16", [toString n.toNat])
  | uint32 n => ("UInt32", [toString n.toNat])
  | uint64 n => ("UInt64", [toString n.toNat])
  | string bytes => ("String", [Text.quoted (Text.decodeLossy bytes)])
  | binary bytes => ("Binary", [style.inner.bytes bytes])
  | extension type data => ("Extension", [toString type.toInt, style.inner.bytes data])
  | array _ => ("Array", [])
  | object _ => ("Object", [])

mutual

/-- Appends the description of a value. -/
def addDescription (style : DescriptionStyle) : Value → String → String
  | array items, out =>
    addItems style true items (out ++ "[") ++ style.beforeClose items.isEmpty ++ "]"
  | object entries, out =>
    addEntries style true entries (out ++ "\x7b") ++ style.beforeClose entries.isEmpty ++ "\x7d"
  | v, out =>
    match v.describedParts style with
    | (name, []) => out ++ name
    | (name, parts) => style.addGroup (name ++ "(") ")" parts out

/-- Appends the items of an array. -/
def addItems (style : DescriptionStyle) (first : Bool) : List Value → String → String
  | [], out => out
  | v :: vs, out =>
    addItems style false vs
      (addDescription style.inner v (out ++ style.beforePart first) ++ style.afterPart)

/-- Appends the entries of an object. -/
def addEntries (style : DescriptionStyle) (first : Bool) : List (Value × Value) → String → String
  | [], out => out
  | (k, v) :: es, out =>
    addEntries style false es
      (addDescription style.inner v
        (addDescription style.inner k (out ++ style.beforePart first) ++ ": ") ++ style.afterPart)

end

/-- The description of a value, on one line or spread over lines. -/
def describe (v : Value) (spread : Bool) : String :=
  v.addDescription (if spread then .spread 0 else .line) ""

end Value

end MessagePack
