import MessagePack.Blocking
import MessagePack.Wire.Reading
import MessagePack.Wire.Decode

/-!
# Decoding from blocking sources

Values that are pulled one by one from a blocking source. No byte after a value is taken with it.

The offset of a reader moves only with reads that succeed, while a read that fails has still taken
what it got. The end of the source and its failures both look like a short read; the failure itself
is kept aside.
-/

namespace MessagePack

/-! ## Readers -/

/-- A source that is being read. -/
structure PullReader where
  source : Source
  /-- The number of bytes that successful reads took. -/
  offset : Nat
  /-- The latest failure of the source other than an unexpected end. -/
  failure : Option Failure
deriving DecidableEq

namespace PullReader

/-- Begins to read a source. -/
def ofSource (source : Source) : PullReader := ⟨source, 0, none⟩

/-- Takes `n` bytes. A short read reports as available what `available` makes of the reason and of
the number of bytes that did arrive. -/
def pull (available : SourceStop → Nat → Nat) (n : Nat) (p : PullReader) :
    Except ShortRead Bytes × PullReader :=
  let (bs, stop, source) := p.source.take n
  match stop with
  | .full => (.ok bs, { p with source := source, offset := p.offset + n })
  | .ended => (.error ⟨p.offset, n, available stop bs.length⟩, { p with source := source })
  | .failed e =>
    let failure := if e.kind = .unexpectedEnd then p.failure else some e
    let short : ShortRead := ⟨p.offset, n, available stop bs.length⟩
    (.error short, { p with source := source, failure := failure })

/-- Passes over `n` bytes. Only at the end of the source it says how many there were. -/
def skip (n : Nat) (p : PullReader) : Except ShortRead Unit × PullReader :=
  let available : SourceStop → Nat → Nat
    | .failed _, _ => 0
    | _, got => got
  match p.pull available n with
  | (.ok _, p) => (.ok (), p)
  | (.error e, p) => (.error e, p)

/-- Gives out the failure that was kept. -/
def takeError (p : PullReader) : Option Failure × PullReader :=
  (p.failure, { p with failure := none })

end PullReader

instance : Readable PullReader where
  offset := PullReader.offset
  remaining? _ := none
  readField := PullReader.pull fun _ _ => 0
  readPayload := PullReader.pull fun _ got => got
  skip := PullReader.skip

/-! ## Values -/

/-- Why pulling a value failed. -/
inductive ReadError where
  | decode (error : DecodeError)
  | io (error : Failure)
deriving DecidableEq

/-- The text of a pulling error. -/
def ReadError.message : ReadError → String
  | decode error => error.message
  | io error => "read failed: " ++ error.text

/-- Pulls one value. A failure of the source comes before the decoding error that it causes. -/
def Source.next (maxDepth : Nat) (s : Source) : Except ReadError Value × Source :=
  match (readAny maxDepth).run (PullReader.ofSource s) with
  | (.ok v, p) => (.ok v, p.source)
  | (.error e, p) =>
    match p.failure with
    | some failure => (.error (.io failure), p.source)
    | none => (.error (.decode e), p.source)

end MessagePack
