import MessagePack.Bytes.OutputBuffer
import MessagePack.Blocking
import MessagePack.Wire.Emission

/-!
# Encoding into buffers and outlets

The pieces of an encoding go into an output buffer, or to an outlet that may run out of room. A
buffer takes every piece at once; an outlet takes a marker and the eight bytes after it one after
the other.

* `OutputBuffer.emit`, `OutputBuffer.encode`: into a buffer.
* `Outlet.emit`, `Outlet.encode`: to an outlet.
-/

namespace MessagePack

/-- Why encoding to an outlet failed. -/
inductive EncodeError where
  | lengthOverflow (error : LengthOverflow)
  | io (error : Failure)
deriving DecidableEq

/-- The text of an encoding error. -/
def EncodeError.message : EncodeError → String
  | lengthOverflow error => error.message
  | io error => "write failed: " ++ error.text

/-! ## Steps -/

/-- What an encoder is asked to add: a value, an integer, or a header without its contents. -/
inductive EncoderStep where
  | value (v : Value)
  | unsigned (n : UInt64)
  | signed (i : Int64)
  | stringHeader (length : Nat)
  | binaryHeader (length : Nat)
  | arrayHeader (length : Nat)
  | objectHeader (length : Nat)
  | extensionHeader (type : Int8) (length : Nat)

/-- What a step adds. -/
def EncoderStep.emission : EncoderStep → Emission
  | value v => .ofValue v
  | unsigned n => Emission.empty.putUnsigned n.toNat
  | signed i => Emission.empty.putInt i.toInt
  | stringHeader length => Emission.empty.putStringHeader length
  | binaryHeader length => Emission.empty.putBinaryHeader length
  | arrayHeader length => Emission.empty.putArrayHeader length
  | objectHeader length => Emission.empty.putObjectHeader length
  | extensionHeader type length => Emission.empty.putExtensionHeader type length

/-! ## Buffers -/

namespace OutputBuffer

/-- Appends a piece. -/
def putPiece : Piece → OutputBuffer → OutputBuffer
  | .plain bytes, w => w.put bytes
  | .marked marker width n, w => w.putMarked marker width n

/-- Appends the pieces of an emission, also when a length ended it. -/
def emit (e : Emission) (w : OutputBuffer) : Except LengthOverflow Unit × OutputBuffer :=
  (e.status, e.pieces.reverse.foldl (fun w piece => w.putPiece piece) w)

/-- Encodes a value by itself: what was pending is dropped first, and nothing is pending after. -/
def encode (v : Value) (w : OutputBuffer) : Except LengthOverflow Bytes × OutputBuffer :=
  match w.reset.emit (.ofValue v) with
  | (.ok (), w) =>
    let (bs, w) := w.flush
    (.ok bs, w)
  | (.error overflow, w) => (.error overflow, w.reset)

end OutputBuffer

/-! ## Outlets -/

namespace Outlet

/-- Writes a piece. A number of eight bytes is written after its marker, any other together with
it. -/
def writePiece : Piece → Outlet → Except Failure Unit × Outlet
  | .plain bytes, o => o.writeAll bytes
  | .marked marker 8 n, o =>
    match o.writeAll [marker] with
    | (.ok (), o) => o.writeAll (bigEndian 8 n)
    | (.error e, o) => (.error e, o)
  | .marked marker width n, o => o.writeAll (marker :: bigEndian width n)

/-- Writes pieces up to the first that fails. -/
def writePieces : List Piece → Outlet → Except Failure Unit × Outlet
  | [], o => (.ok (), o)
  | piece :: pieces, o =>
    match o.writePiece piece with
    | (.ok (), o) => writePieces pieces o
    | (.error e, o) => (.error e, o)

/-- Writes the pieces of an emission. A failure to write comes before the length that ended it. -/
def emit (e : Emission) (o : Outlet) : Except EncodeError Unit × Outlet :=
  match writePieces e.pieces.reverse o with
  | (.ok (), o) => (e.status.mapError .lengthOverflow, o)
  | (.error e, o) => (.error (.io e), o)

/-- Encodes a value. -/
def encode (v : Value) (o : Outlet) : Except EncodeError Unit × Outlet := o.emit (.ofValue v)

end Outlet

end MessagePack
