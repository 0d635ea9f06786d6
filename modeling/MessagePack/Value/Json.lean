import MessagePack.Json.Basic
import MessagePack.Text.Quoted
import MessagePack.Value.Shape

/-!
# Values as JSON

A value as a JSON document and back. Integers are read in 64 bits, signed or unsigned as they are.
Binaries become data URIs, extensions objects of their type and a data URI, and floats that are not
finite become null. A key that is not a string is rendered
as its compact JSON text, so different keys can end up with the same text, which is refused.

How bytes and documents are written as text, and how documents are read, is up to libraries. It
comes in by `TextFormats`.
-/

namespace MessagePack

/-- The text formats of the libraries that rendering, packing and unpacking rely on. -/
class TextFormats where
  /-- The Base64 text of bytes. -/
  base64 : Bytes → String
  /-- The text of a document, indented or compact. -/
  write : (pretty : Bool) → Json → String
  /-- The document that a text is, if it is one. -/
  read? : String → Option Json

/-- Why a value has no JSON document. -/
inductive JsonError where
  /-- Two keys of one object render as the same text. -/
  | duplicateKey (key : String)
deriving DecidableEq

/-- The text of a rendering error. -/
def JsonError.message : JsonError → String
  | duplicateKey key => "two object keys render as the JSON key " ++ Text.quoted key

namespace Value

/-- What a data URI of raw bytes begins with. -/
def dataUriStart : String := "data:application/octet-stream;base64,"

/-- A float as a number, or null when it is not finite. -/
def floatToJson (x : Binary64) : Json := if x.isFinite then .number (.float x) else .null

section

variable [TextFormats]

/-- Bytes as a data URI. -/
def dataUri (bytes : Bytes) : Json := .string (dataUriStart ++ TextFormats.base64 bytes)

/-- The text of an object key from its document: that of a string, and the compact text of
anything else. -/
def keyText (key : Value) (document : Except JsonError Json) : Except JsonError String :=
  match key, document with
  | string bytes, _ => .ok (Text.decodeLossy bytes)
  | _, .ok j => .ok (TextFormats.write false j)
  | _, .error e => .error e

mutual

/-- The JSON document of a value. -/
def toJson : Value → Except JsonError Json
  | nil => .ok .null
  | bool b => .ok (.bool b)
  | float32 x => .ok (floatToJson x.widen)
  | float64 x => .ok (floatToJson x)
  | int8 i => .ok (.number (.ofSigned (int8 i).toInt64))
  | int16 i => .ok (.number (.ofSigned (int16 i).toInt64))
  | int32 i => .ok (.number (.ofSigned (int32 i).toInt64))
  | int64 i => .ok (.number (.ofSigned (int64 i).toInt64))
  | uint8 n => .ok (.number (.unsigned (uint8 n).toUInt64))
  | uint16 n => .ok (.number (.unsigned (uint16 n).toUInt64))
  | uint32 n => .ok (.number (.unsigned (uint32 n).toUInt64))
  | uint64 n => .ok (.number (.unsigned (uint64 n).toUInt64))
  | string bytes => .ok (.string (Text.decodeLossy bytes))
  | binary bytes => .ok (dataUri bytes)
  | array vs =>
    match itemsToJson vs [] with
    | .ok js => .ok (.array js)
    | .error e => .error e
  | object es =>
    match entriesToJson es [] with
    | .ok members => .ok (.object members)
    | .error e => .error e
  | extension type data =>
    .ok (.ofMembers [("type", .number (.ofSigned type.toInt64)), ("data", dataUri data)])

/-- The documents of the items of an array, after those in `seen`, latest first. -/
def itemsToJson : List Value → List Json → Except JsonError (List Json)
  | [], seen => .ok seen.reverse
  | v :: vs, seen =>
    match v.toJson with
    | .ok j => itemsToJson vs (j :: seen)
    | .error e => .error e

/-- The members for the entries of an object, on top of those in `members`, which run from the
greatest name down. A name is checked before the value under it is rendered. -/
def entriesToJson :
    List (Value × Value) → List (String × Json) → Except JsonError (List (String × Json))
  | [], members => .ok members.reverse
  | (k, v) :: es, members =>
    match keyText k k.toJson with
    | .error e => .error e
    | .ok name =>
      if (SortedEntries.find? compare name members).isSome then .error (.duplicateKey name)
      else
        match v.toJson with
        | .ok j => entriesToJson es (SortedEntries.insertDescending compare name j members)
        | .error e => .error e

end

end

/-- The value of a JSON number: the signed integer if it fits, else the unsigned one, else a
double. -/
def ofJsonNumber : JsonNumber → Value
  | .unsigned n => if n.toNat < 0x8000000000000000 then .int64 (Int64.ofNat n.toNat) else .uint64 n
  | .negative i => .int64 i
  | .float x => .float64 x

mutual

/-- The value of a JSON document. -/
def ofJson : Json → Value
  | .null => .nil
  | .bool b => .bool b
  | .number n => ofJsonNumber n
  | .string s => .text s
  | .array js => .array (itemsOfJson js [])
  | .object members => .ofPairs (membersOfJson members [])

/-- The values of array items, after those in `seen`, latest first. -/
def itemsOfJson : List Json → List Value → List Value
  | [], seen => seen.reverse
  | j :: js, seen => itemsOfJson js (ofJson j :: seen)

/-- The keys and values of object members, after those in `seen`, latest first. -/
def membersOfJson : List (String × Json) → List (Value × Value) → List (Value × Value)
  | [], seen => seen.reverse
  | (name, j) :: ms, seen => membersOfJson ms ((.text name, ofJson j) :: seen)

end

end Value

end MessagePack
