import MessagePack.Bytes.Queue
import MessagePack.Wire.Tag

/-!
# Decoding steps

Values are read from byte strings, cursors over queues and blocking sources (`Readable`), by steps
that end at the first error (`Reading`). A failed read reports the offset at which it began, and a
byte that begins no value is reported with its own.

A value begins with a tag and, if it has one, its length. `readHeader` reads both for building the
value, `readExtent` all that comes before the payload and the children for passing over them.
-/

namespace MessagePack

/-! ## Inputs -/

/-- A sequential, bounds-checked source of bytes. Every operation returns the input as it leaves
it, also when it fails. -/
class Readable (σ : Type) where
  /-- The offset of the next byte. -/
  offset : σ → Nat
  /-- The number of bytes left, where the input knows it. -/
  remaining? : σ → Option Nat
  /-- Reads a field of a few bytes. -/
  readField : Nat → σ → Except ShortRead Bytes × σ
  /-- Reads a payload. -/
  readPayload : Nat → σ → Except ShortRead Bytes × σ
  /-- Passes over bytes. -/
  skip : Nat → σ → Except ShortRead Unit × σ

/-- Reads one byte. -/
def Readable.readByte {σ : Type} [Readable σ] (s : σ) : Except ShortRead UInt8 × σ :=
  match Readable.readField 1 s with
  | (.ok bs, s) => (.ok (bs.headD 0), s)
  | (.error e, s) => (.error e, s)

instance : Readable Slice where
  offset := Slice.offset
  remaining? r := some r.size
  readField := Slice.read
  readPayload := Slice.read
  skip := Slice.skip

instance : Readable Cursor where
  offset := Cursor.offset
  remaining? c := some c.remaining
  readField := Cursor.read
  readPayload := Cursor.read
  skip := Cursor.skip

/-! ## Steps -/

/-- Why decoding failed. Offsets count from where decoding began. -/
inductive DecodeError where
  /-- A read that began at the offset found too few bytes. -/
  | endOfBuffer (offset : Nat)
  /-- The byte begins no value. -/
  | invalidByte (byte : UInt8) (offset : Nat)
  /-- A value at the offset is nested too deep. -/
  | depthExceeded (offset : Nat)
deriving DecidableEq, Inhabited

namespace DecodeError

/-- Where decoding failed. -/
def offset : DecodeError → Nat
  | endOfBuffer offset => offset
  | invalidByte _ offset => offset
  | depthExceeded offset => offset

/-- The same error for an input that begins `base` bytes earlier. -/
def shift (base : Nat) : DecodeError → DecodeError
  | endOfBuffer offset => endOfBuffer (offset + base)
  | invalidByte byte offset => invalidByte byte (offset + base)
  | depthExceeded offset => depthExceeded (offset + base)

/-- The text of a decoding error. -/
def message : DecodeError → String
  | endOfBuffer offset => "unexpected end of input at offset " ++ toString offset
  | invalidByte byte offset =>
    let digits := [Nat.digitChar (byte.toNat / 16), Nat.digitChar (byte.toNat % 16)]
    "invalid byte 0x" ++ String.ofList digits ++ " at offset " ++ toString offset
  | depthExceeded offset => "maximum nesting depth exceeded at offset " ++ toString offset

end DecodeError

/-- A step that reads from an input: a result or an error, and the input as the step leaves it. -/
def Reading (σ α : Type) := σ → Except DecodeError α × σ

namespace Reading

variable {σ α β : Type}

/-- Runs a step. -/
def run (x : Reading σ α) (s : σ) : Except DecodeError α × σ := x s

/-- Goes on with the result of a step; an error ends it. -/
@[inline] def bind (x : Reading σ α) (f : α → Reading σ β) : Reading σ β := fun s =>
  match x s with
  | (.ok a, s) => f a s
  | (.error e, s) => (.error e, s)

@[inline] instance : Monad (Reading σ) where
  pure a := fun s => (.ok a, s)
  bind := bind

/-- A read of the input as a step. -/
@[inline] def ofRead (f : σ → Except ShortRead α × σ) : Reading σ α := fun s =>
  match f s with
  | (.ok a, s) => (.ok a, s)
  | (.error e, s) => (.error (.endOfBuffer e.offset), s)

end Reading

/-! ## Headers -/

variable {σ : Type} [Readable σ]

/-- A tag whose length is known. -/
inductive Header where
  | whole (v : Value)
  | scalar (s : Scalar)
  | string (length : Nat)
  | binary (length : Nat)
  | extension (length : Nat)
  | array (length : Nat)
  | object (length : Nat)

/-- Reads the first byte of a value and looks up what it announces. -/
def readLead {α : Type} (ofByte? : UInt8 → Option α) : Reading σ α := fun s =>
  match Readable.readByte s with
  | (.error e, s') => (.error (.endOfBuffer e.offset), s')
  | (.ok b, s') =>
    match ofByte? b with
    | some a => (.ok a, s')
    | none => (.error (.invalidByte b (Readable.offset s)), s')

/-- Reads a length that is not in the tag. -/
def readLength : LengthField → Reading σ Nat
  | .inTag n => pure n
  | .after width => do
    let bs ← Reading.ofRead (Readable.readField width)
    pure (ofBigEndian bs)

/-- Reads a tag and its length. The type byte of an extension comes after that. -/
def readHeader : Reading σ Header := do
  match ← readLead Tag.ofByte? with
  | .whole v => pure (.whole v)
  | .scalar s => pure (.scalar s)
  | .string length => do pure (.string (← readLength length))
  | .binary length => do pure (.binary (← readLength length))
  | .extension length => do pure (.extension (← readLength length))
  | .array length => do pure (.array (← readLength length))
  | .object length => do pure (.object (← readLength length))

/-- Reads all of a value that comes before its payload and its children. -/
def readExtent : Reading σ Extent := do
  match ← readLead Span.ofByte? with
  | .fixed extent => pure extent
  | .payload width => do pure ⟨← readLength (.after width), 0⟩
  | .extension length => do
    let n ← readLength length
    Reading.ofRead (Readable.skip 1)
    pure ⟨n, 0⟩
  | .items width => do pure ⟨0, ← readLength (.after width)⟩
  | .pairs width => do pure ⟨0, 2 * (← readLength (.after width))⟩

end MessagePack
