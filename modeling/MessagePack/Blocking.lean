import MessagePack.Bytes

/-!
# Blocking input and output

A source gives bytes in bursts, as many at a time as it likes, can fail in between, and then either
ends or fails for good. A reader gathers bytes until it has what it wants, the source ends or a call
fails; the bytes it got until then are gone from the source. An outlet takes as many bytes of a call
as it likes, and may have room for so many bytes in all. Interrupted calls are repeated.
-/

namespace MessagePack

/-! ## Failures -/

/-- What kind of failure stopped a read or write outside the program. -/
inductive FailureKind where
  | connectionReset
  | other
  /-- The input ended where more was due. -/
  | unexpectedEnd
  /-- The call can be repeated at once. -/
  | interrupted
  /-- A nonempty write took nothing. -/
  | writeZero
deriving DecidableEq, Repr, Inhabited

/-- A failure and its text. -/
structure Failure where
  kind : FailureKind
  text : String
deriving DecidableEq, Inhabited

/-! ## Sources -/

/-- One thing that calls to a source run into. -/
inductive SourceEvent where
  /-- These bytes are there; a call takes some of them. -/
  | burst (bytes : Bytes)
  /-- One call fails. -/
  | failure (error : Failure)
deriving DecidableEq

/-- A source of bytes. -/
structure Source where
  /-- What calls meet from now on. -/
  events : List SourceEvent
  /-- What every call meets after that: a failure, or the end of the input. -/
  final : Option Failure
  /-- The number of bytes that were taken. -/
  position : Nat
deriving DecidableEq

/-- Why a reader stopped. -/
inductive SourceStop where
  /-- It has what it wanted. -/
  | full
  /-- The input ended. -/
  | ended
  | failed (error : Failure)
deriving DecidableEq

namespace Source

/-- A source that gives the bytes and ends. -/
def ofBytes (bs : Bytes) : Source := ⟨[.burst bs], none, 0⟩

/-- Gathers `n` bytes onto those in `got`, latest piece first. Nothing is asked of the source
once there are enough. -/
def gather (final : Option Failure) (got : List Bytes) :
    Nat → List SourceEvent → List Bytes × SourceStop × List SourceEvent
  | 0, events => (got, .full, events)
  | _ + 1, [] =>
    match final with
    | some e => (got, .failed e, [])
    | none => (got, .ended, [])
  | n + 1, .burst bs :: events =>
    match splitFront (n + 1) bs with
    | .ok (front, rest) => (front :: got, .full, .burst rest :: events)
    | .error available => gather final (bs :: got) (n + 1 - available) events
  | n + 1, .failure e :: events =>
    if e.kind = .interrupted then gather final got (n + 1) events else (got, .failed e, events)

/-- The bytes that a reader gets that wants `n`, why it stopped, and what is left of the source. -/
def take (n : Nat) (s : Source) : Bytes × SourceStop × Source :=
  let (got, stop, events) := gather s.final [] n s.events
  let bs := got.reverse.flatten
  (bs, stop, { s with events := events, position := s.position + bs.length })

end Source

/-! ## Outlets -/

/-- A place that takes bytes. -/
structure Outlet where
  /-- The number of bytes it can still take, if that is limited. -/
  room : Option Nat
  /-- The number of bytes that one call takes at most, by how many were taken before. -/
  burst : Nat → Nat
  /-- The failure of a write that finds no room. -/
  failure : Failure
  /-- What was taken, latest piece first. -/
  pieces : List Bytes
  /-- How many bytes were taken. -/
  taken : Nat

namespace Outlet

/-- The bytes that were taken. -/
def bytes (o : Outlet) : Bytes := o.pieces.reverse.flatten

/-- Offers bytes, of which there are some, in one call; returns how many were taken. -/
def write (bs : Bytes) (o : Outlet) : Except Failure Nat × Outlet :=
  if o.room = some 0 then (.error o.failure, o)
  else
    let limit := o.burst o.taken
    let front := bs.take (match o.room with | some room => min room limit | none => limit)
    let n := front.length
    let room := o.room.map (· - n)
    (.ok n, { o with room := room, pieces := front :: o.pieces, taken := o.taken + n })

/-- Offers bytes in call after call until all are taken. A call that takes none ends it, and so does
one that fails, unless it was interrupted: that is repeated at once. -/
def offer : (calls : Nat) → Bytes → Outlet → Except Failure Unit × Outlet
  | _, [], o => (.ok (), o)
  | 0, _ :: _, o => (.error ⟨.writeZero, "failed to write whole buffer"⟩, o)
  | calls + 1, b :: bs, o =>
    match o.write (b :: bs) with
    | (.error e, o) => if e.kind = .interrupted then offer calls (b :: bs) o else (.error e, o)
    | (.ok 0, o) => (.error ⟨.writeZero, "failed to write whole buffer"⟩, o)
    | (.ok n, o) => offer calls ((b :: bs).drop n) o

/-- Writes all bytes. There are never more calls than bytes, but for an outlet without room that
interrupts every call, which would keep a writer for ever. -/
def writeAll (bs : Bytes) (o : Outlet) : Except Failure Unit × Outlet := offer bs.length bs o

end Outlet

end MessagePack
