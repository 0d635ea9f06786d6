import MessagePack.Wire.Decode

/-!
# Decoding chunks as they arrive

A decoder that takes chunks and gives values as soon as they are complete. The headers of a pending
value are scanned once: the scan stops where bytes are missing and goes on from there.

* `IncrementalDecoder.push`, `next`, `clear`: the decoder.
* `IncrementalDecoder.resumeScan`: whether decoding would now come to a result.
-/

namespace MessagePack

/-- How far the headers of a pending value have been scanned. -/
structure Scan where
  /-- The place after the last header whose payload has arrived. -/
  mark : Option Mark
  /-- The numbers of children still due in the open arrays and objects, the innermost first. -/
  due : List Nat
deriving DecidableEq, Inhabited

/-- Nothing scanned. -/
def Scan.start : Scan := ⟨none, []⟩

/-- Counts off a complete child: full arrays and objects close and count off in turn. Nothing is
left when the outermost value is complete. -/
def closeChild : List Nat → List Nat
  | [] => []
  | n :: due => if n ≤ 1 then closeChild due else (n - 1) :: due

/-- Where a scan stands after a header: the children due once `children` more are. -/
def openChildren (children : Nat) (due : List Nat) : List Nat :=
  if 0 < children then children :: due else closeChild due

/-- Scans headers from a cursor on. The answer is whether decoding would now come to a result: a
whole value has arrived, or an error is certain. Each turn reads at least a byte, so one turn more
than there are bytes is enough, and further ones change nothing (`scanHeaders_eq`). -/
def scanHeaders (maxDepth : Nat) : (turns : Nat) → Cursor → Scan → Bool × Scan
  | 0, _, scan => (false, scan)
  | turns + 1, c, scan =>
    if maxDepth < scan.due.length then (true, scan)
    else
      match readExtent.run c with
      | (.error (.endOfBuffer _), _) => (false, scan)
      | (.error _, _) => (true, scan)
      | (.ok extent, c) =>
        match c.skip extent.payload with
        | (.error _, _) => (false, scan)
        | (.ok (), c) =>
          match openChildren extent.children scan.due with
          | [] => (true, ⟨some c.mark, []⟩)
          | due => scanHeaders maxDepth turns c ⟨some c.mark, due⟩

/-- A decoder of values that arrive in chunks. -/
structure IncrementalDecoder where
  maxDepth : Nat
  /-- The bytes of no value yet. -/
  queue : ByteQueue
  /-- The number of bytes of the values that were given out, and of dropped bytes. -/
  consumed : Nat
  scan : Scan

namespace IncrementalDecoder

/-- A decoder to which nothing has come. -/
def ofMaxDepth (maxDepth : Nat) : IncrementalDecoder := ⟨maxDepth, .empty, 0, .start⟩

/-- Takes a chunk. -/
def push (d : IncrementalDecoder) (chunk : Bytes) : IncrementalDecoder :=
  { d with queue := d.queue.push chunk }

/-- The number of bytes that wait. -/
def buffered (d : IncrementalDecoder) : Nat := d.queue.size

/-- Goes on with the scan of the pending value. -/
def resumeScan (d : IncrementalDecoder) : Bool × Scan :=
  let c :=
    match d.scan.mark with
    | some mark => d.queue.cursorAt mark
    | none => d.queue.cursor
  scanHeaders d.maxDepth (c.remaining + 1) c d.scan

/-- The next value, nothing when bytes are missing, or an error with its offset from the beginning
of the stream. The bytes of an erroneous value stay. -/
def next (d : IncrementalDecoder) : Except DecodeError (Option Value) × IncrementalDecoder :=
  if d.queue.size = 0 then (.ok none, d)
  else
    match d.resumeScan with
    | (false, scan) => (.ok none, { d with scan := scan })
    | (true, _) =>
      let d := { d with scan := .start }
      match (readAny d.maxDepth).run d.queue.cursor with
      | (.ok v, c) =>
        match d.queue.skip c.offset with
        | (.ok (), queue) =>
          (.ok (some v), { d with queue := queue, consumed := d.consumed + c.offset })
        | (.error e, _) => (.error (.endOfBuffer e.offset), d)
      | (.error (.endOfBuffer _), _) => (.ok none, d)
      | (.error e, _) => (.error (e.shift d.consumed), d)

/-- Drops the bytes that wait. -/
def clear (d : IncrementalDecoder) : IncrementalDecoder :=
  ⟨d.maxDepth, .empty, d.consumed + d.queue.size, .start⟩

end IncrementalDecoder

end MessagePack
