import MessagePack.Json.Parser
import MessagePack.Json.Printer
import MessagePack.Value.Json
import MessagePack.Wire.Decode
import MessagePack.Wire.Emission

/-!
# Packing and unpacking documents

JSON text to encoded values and back, with any text formats. The commands use the reader and the
printer of this library and Base64 in the standard alphabet, with padding.
-/

namespace MessagePack

/-! ## Text formats -/

namespace Base64

/-- The character for six bits. -/
def digit (n : Nat) : Char :=
  if n < 26 then Char.ofNat ('A'.toNat + n)
  else if n < 52 then Char.ofNat ('a'.toNat + (n - 26))
  else if n < 62 then Char.ofNat ('0'.toNat + (n - 52))
  else if n = 62 then '+'
  else '/'

/-- Puts the characters for the bytes onto an output that is kept latest character first: four for
each three bytes, the last group filled up with `=`. -/
def put (out : List Char) : Bytes → List Char
  | a :: b :: c :: bs =>
    let n := ofBigEndian [a, b, c]
    put
      (digit (n % 64) :: digit (n / 64 % 64) :: digit (n / 4096 % 64) :: digit (n / 262144) ::
        out)
      bs
  | [a, b] =>
    let n := ofBigEndian [a, b, 0]
    '=' :: digit (n / 64 % 64) :: digit (n / 4096 % 64) :: digit (n / 262144) :: out
  | [a] =>
    let n := ofBigEndian [a, 0, 0]
    '=' :: '=' :: digit (n / 4096 % 64) :: digit (n / 262144) :: out
  | [] => out

/-- The Base64 text of bytes. -/
def encode (bs : Bytes) : String := String.ofList (put [] bs).reverse

end Base64

/-- What the commands read and write. -/
instance TextFormats.standard : TextFormats where
  base64 := Base64.encode
  write pretty j := j.text pretty
  read? := Json.parse?

/-! ## Documents -/

/-- Why packing or unpacking failed. -/
inductive DocumentError where
  /-- The text is not a JSON document. -/
  | notJson
  | encode (error : LengthOverflow)
  | render (error : JsonError)
  /-- After so many good values the bytes cannot be decoded. -/
  | decode (values : Nat) (source : DecodeError)

/-- The text of a packing or unpacking error. -/
def DocumentError.message : DocumentError → String
  | notJson => "invalid JSON: not a JSON document"
  | encode error => error.message
  | render error => "cannot render as JSON: " ++ error.message
  | decode values source =>
    "invalid MessagePack after " ++ toString values ++ " value(s): " ++ source.message

variable [TextFormats]

/-- Encodes the JSON document that a text is. -/
def pack (text : String) : Except DocumentError Bytes :=
  match TextFormats.read? text with
  | none => .error .notJson
  | some j =>
    match encode (.ofJson j) with
    | .ok bs => .ok bs
    | .error overflow => .error (.encode overflow)

/-- Appends the documents of values, each with a line feed. -/
def renderLines (pretty : Bool) : List Value → String → Except DocumentError String
  | [], out => .ok out
  | v :: vs, out =>
    match v.toJson with
    | .ok j => renderLines pretty vs (out ++ TextFormats.write pretty j ++ "\n")
    | .error e => .error (.render e)

/-- Renders all values of a byte string as JSON documents. A decoding error comes before any
rendering error. -/
def unpack (bs : Bytes) (pretty : Bool) : Except DocumentError String :=
  let decoded := decodeAll defaultMaxDepth bs
  match decoded.error with
  | some e => .error (.decode decoded.values.length e)
  | none => renderLines pretty decoded.values ""

end MessagePack
