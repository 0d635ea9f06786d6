import MessagePack.SortedEntries
import MessagePack.Value.Order
import MessagePack.Wire.Reading

/-!
# Decoding

Values read from any input, with a bound on how deep they nest. Decoding and skipping read the same
headers and fail alike; only what they keep differs.

* `readValue`, `skipValue`: one value from an input.
* `decode`, `validate`, `decodeAll`: from a byte string.
-/

namespace MessagePack

variable {σ : Type} [Readable σ]

/-! ## Values -/

/-- Reads `n` values onto those in `seen`, latest first. -/
def readItems (item : Reading σ Value) : Nat → List Value → Reading σ (List Value)
  | 0, seen, s => (.ok seen.reverse, s)
  | n + 1, seen, s =>
    match item s with
    | (.ok v, s) => readItems item n (v :: seen) s
    | (.error e, s) => (.error e, s)

/-- Reads `n` entries into those in `entries`, which run from the greatest key down. -/
def readEntries (item : Reading σ Value) :
    Nat → List (Value × Value) → Reading σ (List (Value × Value))
  | 0, entries, s => (.ok entries.reverse, s)
  | n + 1, entries, s =>
    match item s with
    | (.error e, s) => (.error e, s)
    | (.ok k, s) =>
      match item s with
      | (.error e, s) => (.error e, s)
      | (.ok v, s) => readEntries item n (SortedEntries.insertDescending Value.cmp k v entries) s

/-- Passes over `n` values. -/
def skipItems (item : Reading σ Unit) : Nat → Reading σ Unit
  | 0, s => (.ok (), s)
  | n + 1, s =>
    match item s with
    | (.ok (), s) => skipItems item n s
    | (.error e, s) => (.error e, s)

/-- Fails at the next byte because it is nested too deep. -/
def tooDeep {α : Type} : Reading σ α := fun s => (.error (.depthExceeded (Readable.offset s)), s)

/-- Reads a value that takes up at most `levels` levels. -/
def readValue : (levels : Nat) → Reading σ Value
  | 0 => tooDeep
  | levels + 1 => do
    match ← readHeader with
    | .whole v => pure v
    | .scalar s => do pure (s.value (← Reading.ofRead (Readable.readField s.size)))
    | .string length => do pure (.string (← Reading.ofRead (Readable.readPayload length)))
    | .binary length => do pure (.binary (← Reading.ofRead (Readable.readPayload length)))
    | .extension length => do
      let type ← Reading.ofRead Readable.readByte
      pure (.extension type.toInt8 (← Reading.ofRead (Readable.readPayload length)))
    | .array length => do pure (.array (← readItems (readValue levels) length []))
    | .object length => do pure (.object (← readEntries (readValue levels) length []))

/-- Passes over a value that takes up at most `levels` levels. -/
def skipValue : (levels : Nat) → Reading σ Unit
  | 0 => tooDeep
  | levels + 1 => do
    let extent ← readExtent
    Reading.ofRead (Readable.skip extent.payload)
    skipItems (skipValue levels) extent.children

/-- Reads a value whose innermost parts are at most `maxDepth` levels below it. -/
def readAny (maxDepth : Nat) : Reading σ Value := readValue (maxDepth + 1)

/-- Passes over a value whose innermost parts are at most `maxDepth` levels below it. -/
def skipAny (maxDepth : Nat) : Reading σ Unit := skipValue (maxDepth + 1)

/-! ## Byte strings -/

/-- The bound on nesting where none is given. -/
def defaultMaxDepth : Nat := 200

/-- The value at the beginning of a byte string, and the number of its bytes. -/
def decode (maxDepth : Nat) (bs : Bytes) : Except DecodeError (Value × Nat) :=
  match (readAny maxDepth).run (Slice.ofBytes bs) with
  | (.ok v, r) => .ok (v, r.offset)
  | (.error e, _) => .error e

/-- The number of bytes of the value at the beginning of a byte string. -/
def validate (maxDepth : Nat) (bs : Bytes) : Except DecodeError Nat :=
  match (skipAny maxDepth).run (Slice.ofBytes bs) with
  | (.ok (), r) => .ok r.offset
  | (.error e, _) => .error e

/-- Values that stand one after the other, up to the end of the bytes or the first error. -/
structure DecodedSequence where
  values : List Value
  /-- The offset after the last value. -/
  stop : Nat
  error : Option DecodeError

/-- Reads values one after the other onto those in `seen`, latest first. Each takes at least a
byte, so as many turns as there are bytes are enough, and further ones change nothing
(`decodeSequence_of_stuck`). -/
def decodeSequence (maxDepth : Nat) : (turns : Nat) → Slice → List Value → DecodedSequence
  | 0, r, seen => ⟨seen.reverse, r.offset, none⟩
  | turns + 1, r, seen =>
    if r.rest.isEmpty then ⟨seen.reverse, r.offset, none⟩
    else
      match (readAny maxDepth).run r with
      | (.ok v, r) => decodeSequence maxDepth turns r (v :: seen)
      | (.error e, _) => ⟨seen.reverse, r.offset, some e⟩

/-- The values of a byte string, one after the other. -/
def decodeAll (maxDepth : Nat) (bs : Bytes) : DecodedSequence :=
  decodeSequence maxDepth bs.length (Slice.ofBytes bs) []

end MessagePack
