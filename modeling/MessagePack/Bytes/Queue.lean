import MessagePack.Bytes

/-!
# Byte queues

Bytes that arrive in chunks and leave from the front. Chunks are never cut or joined: the queue
counts how far the front one is consumed, and reads walk from one chunk to the next. Offsets in
errors count from the first byte that is not consumed.

* `Cursor`: a view that reads ahead and consumes nothing. Its places are saved as `Mark`s, which
  stay good while bytes are only pushed.
* `ByteQueue`: chunks with two counters that agree with them.
-/

namespace MessagePack

/-! ## Walking over chunks -/

/-- The chunks from a place in the first of them on. -/
def chunksFrom (within : Nat) : List Bytes → List Bytes
  | [] => []
  | bs :: later => bs.drop within :: later

/-- The place is before the end of the first of some chunks, or there are none and it is where the
next one begins. -/
def InFront (within : Nat) : List Bytes → Prop
  | [] => within = 0
  | bs :: _ => within < bs.length

theorem inFront_zero {chunks : List Bytes} (h : ∀ bs ∈ chunks, bs ≠ []) : InFront 0 chunks := by
  cases chunks with
  | nil => rfl
  | cons bs later => exact List.length_pos_iff.2 (h bs List.mem_cons_self)

/-- A place stays before the end of its chunk when more chunks come. -/
theorem InFront.append {within : Nat} {chunks more : List Bytes} (h : InFront within chunks)
    (hmore : ∀ bs ∈ more, bs ≠ []) : InFront within (chunks ++ more) := by
  cases chunks with
  | nil =>
    obtain rfl : within = 0 := h
    exact inFront_zero hmore
  | cons bs later => exact h

/-- A place between two bytes of a list of chunks, by chunk and byte. What is ahead of it is
what indexing with the two counters would find (`ChunkPosition.At.ahead_eq`); it is kept
beside them so that no read has to go through the chunks before it. -/
structure ChunkPosition where
  /-- The bytes from the place on: what is left of its chunk, and the chunks after it. -/
  ahead : List Bytes
  /-- The number of chunks before the place. -/
  chunk : Nat
  /-- The number of bytes of its chunk before the place. -/
  within : Nat
deriving DecidableEq, Inhabited

namespace ChunkPosition

/-- Walks over `n` bytes. A place at the end of a chunk is the beginning of the next one, whether
that has arrived or not. The bytes passed go onto `passed`, latest piece first. Reading one byte,
copying and skipping are this one loop: they take from it the first byte, all bytes or only
the place. -/
def walk (n : Nat) (passed : List Bytes) :
    List Bytes → (chunk within : Nat) → List Bytes × ChunkPosition
  | [], chunk, within => (passed, ⟨[], chunk, within⟩)
  | bs :: ahead, chunk, within =>
    match bs.drop n with
    | [] => walk (n - bs.length) (bs :: passed) ahead (chunk + 1) 0
    | rest => (bs.take n :: passed, ⟨rest :: ahead, chunk, within + n⟩)

/-- The next `n` bytes and the place after them. -/
def advance (n : Nat) (p : ChunkPosition) : Bytes × ChunkPosition :=
  let (passed, p) := walk n [] p.ahead p.chunk p.within
  (passed.reverse.flatten, p)

end ChunkPosition

/-! ## Cursors -/

/-- A saved place of a cursor, by chunk and byte and by its distance from the front. -/
structure Mark where
  chunk : Nat
  within : Nat
  offset : Nat
deriving DecidableEq, Inhabited

/-- A view of a queue from a place on. -/
structure Cursor where
  position : ChunkPosition
  /-- The number of bytes between the front of the queue and the place. -/
  offset : Nat
  /-- The number of bytes in the queue. -/
  size : Nat
deriving DecidableEq, Inhabited

namespace Cursor

/-- The number of bytes from the place to the end of the queue. -/
def remaining (c : Cursor) : Nat := c.size - c.offset

/-- The place, to come back to. -/
def mark (c : Cursor) : Mark := ⟨c.position.chunk, c.position.within, c.offset⟩

/-- Reads the next `n` bytes. A short read leaves the cursor where it was. -/
def read (n : Nat) (c : Cursor) : Except ShortRead Bytes × Cursor :=
  if c.remaining < n then (.error ⟨c.offset, n, c.remaining⟩, c)
  else
    let (bs, p) := c.position.advance n
    (.ok bs, ⟨p, c.offset + n, c.size⟩)

/-- Passes over the next `n` bytes. -/
def skip (n : Nat) (c : Cursor) : Except ShortRead Unit × Cursor :=
  match c.read n with
  | (.ok _, c) => (.ok (), c)
  | (.error e, c) => (.error e, c)

end Cursor

/-! ## Chunks and counters -/

/-- Chunks, and how much of them there is. -/
structure ChunkStore where
  /-- The chunks in order, as they came. -/
  chunks : List Bytes
  /-- The number of bytes of the front chunk that are consumed. -/
  consumed : Nat
  /-- The length of all chunks, the consumed bytes of the front one included. -/
  stored : Nat
deriving DecidableEq, Inhabited

namespace ChunkStore

/-- The counters agree with the chunks, of which none is empty. -/
structure WellFormed (s : ChunkStore) : Prop where
  chunks_ne : ∀ bs ∈ s.chunks, bs ≠ []
  stored_eq : s.stored = s.chunks.flatten.length
  consumed_inFront : InFront s.consumed s.chunks

/-- Adds a chunk at the end. An empty chunk is not kept. -/
def push (s : ChunkStore) (chunk : Bytes) : ChunkStore :=
  if chunk.isEmpty then s else ⟨s.chunks ++ [chunk], s.consumed, s.stored + chunk.length⟩

/-- Drops `n` bytes from the front of the chunks: more of a chunk that reaches beyond them is
consumed, and any other chunk is forgotten. -/
def discardFrom : (chunks : List Bytes) → (n consumed stored : Nat) → ChunkStore
  | [], _, consumed, stored => ⟨[], consumed, stored⟩
  | bs :: later, n, consumed, stored =>
    if n = 0 then ⟨bs :: later, consumed, stored⟩
    else if n < bs.length - consumed then ⟨bs :: later, consumed + n, stored⟩
    else discardFrom later (n - (bs.length - consumed)) 0 (stored - bs.length)

/-- Drops `n` bytes from the front. -/
def discard (n : Nat) (s : ChunkStore) : ChunkStore :=
  discardFrom s.chunks n s.consumed s.stored

namespace WellFormed

theorem empty : WellFormed ⟨[], 0, 0⟩ := ⟨by simp, rfl, rfl⟩

theorem push {s : ChunkStore} (h : s.WellFormed) (chunk : Bytes) : (s.push chunk).WellFormed := by
  unfold ChunkStore.push
  by_cases hchunk : chunk = []
  · simpa [hchunk] using h
  · have hone : ∀ bs ∈ [chunk], bs ≠ [] := by simpa using hchunk
    rw [if_neg (by simpa using hchunk)]
    exact ⟨List.forall_mem_append.2 ⟨h.chunks_ne, hone⟩, by simp [h.stored_eq],
      h.consumed_inFront.append hone⟩

/-- Without its front chunk, the store is as if that had never come. -/
theorem tail {bs : Bytes} {later : List Bytes} {consumed stored : Nat}
    (h : WellFormed ⟨bs :: later, consumed, stored⟩) :
    WellFormed ⟨later, 0, stored - bs.length⟩ := by
  have hne : ∀ bs' ∈ later, bs' ≠ [] := fun bs' hbs' => h.chunks_ne bs' (List.mem_cons_of_mem _ hbs')
  have hstored : stored = bs.length + later.flatten.length := by simpa using h.stored_eq
  refine ⟨hne, ?_, inFront_zero hne⟩
  show stored - bs.length = later.flatten.length
  omega

theorem discardFrom {chunks : List Bytes} {n consumed stored : Nat}
    (h : WellFormed ⟨chunks, consumed, stored⟩) :
    (ChunkStore.discardFrom chunks n consumed stored).WellFormed := by
  induction chunks generalizing n consumed stored with
  | nil => exact h
  | cons bs later ih =>
    unfold ChunkStore.discardFrom
    split
    case isTrue => exact h
    case isFalse =>
      split
      case isTrue hlt => exact ⟨h.chunks_ne, h.stored_eq, Nat.add_lt_of_lt_sub' hlt⟩
      case isFalse => exact ih h.tail

/-- Whatever is dropped, the counters go on to agree with the chunks. -/
theorem discard {s : ChunkStore} (h : s.WellFormed) (n : Nat) : (s.discard n).WellFormed :=
  h.discardFrom

/-- The consumed bytes are stored. -/
theorem consumed_le {s : ChunkStore} (h : s.WellFormed) : s.consumed ≤ s.stored := by
  obtain ⟨chunks, consumed, stored⟩ := s
  have hfront := h.consumed_inFront
  have hstored : stored = chunks.flatten.length := h.stored_eq
  show consumed ≤ stored
  cases chunks with
  | nil =>
    obtain rfl : consumed = 0 := hfront
    exact Nat.zero_le _
  | cons bs later =>
    have hlt : consumed < bs.length := hfront
    rw [List.flatten_cons, List.length_append] at hstored
    omega

end WellFormed

end ChunkStore

/-! ## The queue -/

/-- Queued bytes. -/
structure ByteQueue extends ChunkStore where
  wellFormed : toChunkStore.WellFormed
deriving DecidableEq

namespace ByteQueue

/-- No bytes. -/
def empty : ByteQueue := ⟨⟨[], 0, 0⟩, .empty⟩

instance : Inhabited ByteQueue := ⟨empty⟩

/-- The number of queued bytes. -/
def size (q : ByteQueue) : Nat := q.stored - q.consumed

/-- Adds a chunk at the end. -/
def push (q : ByteQueue) (chunk : Bytes) : ByteQueue :=
  ⟨q.toChunkStore.push chunk, q.wellFormed.push chunk⟩

/-- Drops `n` bytes from the front, of which there are enough. -/
def discard (n : Nat) (q : ByteQueue) : ByteQueue :=
  ⟨q.toChunkStore.discard n, q.wellFormed.discard n⟩

/-- Checks that `n` bytes are queued. -/
def check (q : ByteQueue) (n : Nat) : Except ShortRead Unit :=
  if q.size < n then .error ⟨0, n, q.size⟩ else .ok ()

/-- A cursor at the front. -/
def cursor (q : ByteQueue) : Cursor :=
  ⟨⟨chunksFrom q.consumed q.chunks, 0, q.consumed⟩, 0, q.size⟩

/-- A cursor at a saved place. -/
def cursorAt (q : ByteQueue) (mark : Mark) : Cursor :=
  ⟨⟨chunksFrom mark.within (q.chunks.drop mark.chunk), mark.chunk, mark.within⟩, mark.offset, q.size⟩

/-- When bytes are queued there is a front chunk, and it is not used up. -/
theorem consumed_lt {q : ByteQueue} (h : q.check 1 = .ok ()) :
    ∃ bs later, q.chunks = bs :: later ∧ q.consumed < bs.length := by
  have hfront := q.wellFormed.consumed_inFront
  have hstored := q.wellFormed.stored_eq
  cases hchunks : q.chunks with
  | nil => simp [check, size, hchunks ▸ hstored] at h
  | cons bs later => exact ⟨bs, later, rfl, by simpa [hchunks, InFront] using hfront⟩

/-- The front byte, which stays queued. -/
def peek (q : ByteQueue) : Except ShortRead UInt8 :=
  match h : q.check 1 with
  | .error e => .error e
  | .ok () =>
    have hchunk : 0 < q.chunks.length := by
      obtain ⟨bs, later, hchunks, -⟩ := consumed_lt h
      simp [hchunks]
    have hbyte : q.consumed < q.chunks[0].length := by
      obtain ⟨bs, later, hchunks, hlt⟩ := consumed_lt h
      simpa [hchunks] using hlt
    .ok q.chunks[0][q.consumed]

/-- Takes one byte off the front. -/
def byte (q : ByteQueue) : Except ShortRead UInt8 × ByteQueue :=
  match q.peek with
  | .error e => (.error e, q)
  | .ok b => (.ok b, q.discard 1)

/-- Takes `n` bytes off the front. -/
def read (n : Nat) (q : ByteQueue) : Except ShortRead Bytes × ByteQueue :=
  match (q.cursor.read n).1 with
  | .error e => (.error e, q)
  | .ok bs => (.ok bs, q.discard n)

/-- Drops `n` bytes from the front. -/
def skip (n : Nat) (q : ByteQueue) : Except ShortRead Unit × ByteQueue :=
  match q.check n with
  | .error e => (.error e, q)
  | .ok () => (.ok (), q.discard n)

end ByteQueue

end MessagePack
