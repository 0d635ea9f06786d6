import MessagePack.Bytes.Queue

/-!
# Byte queues and their cursors

A queue stands for the bytes of its chunks, one after the other, less those that are consumed. A
place in it is at a distance from the front, and however the chunks are cut, walking over bytes goes
to the place that far behind. No chunk is empty, so there is one such place only: behind the last
byte of a chunk, the beginning of the next one.

* `ByteQueue.toBytes`, `toBytes_push`, `toBytes_discard`: what a queue holds.
* `Cursor.At`, `Mark.At`: a cursor or a saved place at a distance from the front.
-/

namespace MessagePack

/-! ## Places -/

/-- The place `o` bytes behind the beginning of some chunks, by chunk and byte. The end of a chunk
is the beginning of the next one, whether that has arrived or not; these are the chunks before and
after the place. -/
structure PlaceAt (o chunk within : Nat) (before after : List Bytes) : Prop where
  chunk_eq : chunk = before.length
  offset_eq : o = before.flatten.length + within
  inFront : InFront within after

theorem flatten_chunksFrom {within : Nat} {chunks : List Bytes} (h : InFront within chunks) :
    (chunksFrom within chunks).flatten = chunks.flatten.drop within ∧
      within ≤ chunks.flatten.length := by
  cases chunks with
  | nil =>
    obtain rfl : within = 0 := h
    simp [chunksFrom]
  | cons bs later =>
    have hle : within ≤ bs.length := Nat.le_of_lt h
    simp only [chunksFrom, List.flatten_cons, List.length_append]
    exact ⟨(List.drop_append_of_le_length hle).symm, by omega⟩

namespace PlaceAt

variable {o chunk within : Nat} {before after : List Bytes}

theorem append (h : PlaceAt o chunk within before after) {more : List Bytes}
    (hmore : ∀ bs ∈ more, bs ≠ []) : PlaceAt o chunk within before (after ++ more) :=
  ⟨h.chunk_eq, h.offset_eq, h.inFront.append hmore⟩

/-- The bytes from the place on. -/
theorem flatten_after (h : PlaceAt o chunk within before after) :
    (chunksFrom within after).flatten = (before ++ after).flatten.drop o := by
  rw [List.flatten_append, h.offset_eq, (flatten_chunksFrom h.inFront).1, ← List.drop_drop,
    List.drop_left]

theorem offset_le (h : PlaceAt o chunk within before after) :
    o ≤ (before ++ after).flatten.length := by
  have hle := (flatten_chunksFrom h.inFront).2
  rw [List.flatten_append, List.length_append, h.offset_eq]
  omega

/-- As far from the front, no place has more chunks before it. -/
theorem eq_nil_of_append {chunk' within' : Nat} {mid after' : List Bytes}
    (h : PlaceAt o chunk within before (mid ++ after'))
    (h' : PlaceAt o chunk' within' (before ++ mid) after') : mid = [] := by
  cases mid with
  | nil => rfl
  | cons bs mid =>
    have hlt : within < bs.length := h.inFront
    have hoffset := h.offset_eq
    have hoffset' := h'.offset_eq
    simp only [List.flatten_append, List.flatten_cons, List.length_append] at hoffset'
    omega

/-- There is one place at a distance from the front. -/
theorem unique {chunk' within' : Nat} {before' after' : List Bytes}
    (h : PlaceAt o chunk within before after) (h' : PlaceAt o chunk' within' before' after')
    (heq : before ++ after = before' ++ after') :
    before = before' ∧ after = after' ∧ within = within' := by
  -- The later of two places has the chunks between them before it, and these would hold bytes.
  have hsame : before = before' ∧ after = after' := by
    rcases List.append_eq_append_iff.1 heq with ⟨mid, rfl, rfl⟩ | ⟨mid, rfl, rfl⟩
    · simp [h.eq_nil_of_append h']
    · simp [h'.eq_nil_of_append h]
  obtain ⟨rfl, rfl⟩ := hsame
  have hoffset := h.offset_eq
  have hoffset' := h'.offset_eq
  exact ⟨rfl, rfl, by omega⟩

end PlaceAt

namespace ChunkPosition

/-- The position is `o` bytes behind the beginning of the chunks. -/
def At (chunks : List Bytes) (o : Nat) (p : ChunkPosition) : Prop :=
  ∃ before after, chunks = before ++ after ∧ PlaceAt o p.chunk p.within before after ∧
    p.ahead = chunksFrom p.within after

section

variable {chunks : List Bytes} {o : Nat} {p p' : ChunkPosition}

theorem At.flatten_ahead (h : p.At chunks o) : p.ahead.flatten = chunks.flatten.drop o := by
  obtain ⟨before, after, rfl, hplace, hahead⟩ := h
  rw [hahead, hplace.flatten_after]

theorem At.offset_le (h : p.At chunks o) : o ≤ chunks.flatten.length := by
  obtain ⟨before, after, rfl, hplace, -⟩ := h
  exact hplace.offset_le

/-- What is ahead is what indexing with the two counters finds. -/
theorem At.ahead_eq (h : p.At chunks o) :
    p.ahead = chunksFrom p.within (chunks.drop p.chunk) := by
  obtain ⟨before, after, rfl, hplace, hahead⟩ := h
  rw [hahead, hplace.chunk_eq, List.drop_left]

theorem At.eq (h : p.At chunks o) (h' : p'.At chunks o) : p = p' := by
  obtain ⟨before, after, rfl, hplace, hahead⟩ := h
  obtain ⟨before', after', heq, hplace', hahead'⟩ := h'
  obtain ⟨rfl, rfl, hwithin⟩ := hplace.unique hplace' heq
  have hchunk : p.chunk = p'.chunk := hplace.chunk_eq.trans hplace'.chunk_eq.symm
  cases p
  cases p'
  simp_all

/-- The chunk of the place is there and reaches beyond it. The place behind all chunks is the
beginning of the next one to come. -/
def InRange (chunks : List Bytes) (p : ChunkPosition) : Prop :=
  (∃ bs, chunks[p.chunk]? = some bs ∧ p.within < bs.length) ∨
    p.chunk = chunks.length ∧ p.within = 0

theorem At.inRange (h : p.At chunks o) :
    p.InRange chunks ∧ (o = chunks.flatten.length ↔ p.chunk = chunks.length) := by
  obtain ⟨before, after, rfl, hplace, -⟩ := h
  have hoffset := hplace.offset_eq
  have hfront := hplace.inFront
  cases after with
  | nil =>
    have hzero : p.within = 0 := hfront
    simp [InRange, hplace.chunk_eq, hzero, hoffset]
  | cons bs later =>
    have hlt : p.within < bs.length := hfront
    refine ⟨.inl ⟨bs, by simp [hplace.chunk_eq], hlt⟩, ?_⟩
    simp only [hplace.chunk_eq, List.flatten_append, List.flatten_cons, List.length_append,
      List.length_cons]
    omega

end

section

variable {chunks ahead : List Bytes} {bs : Bytes} {n o chunk within : Nat}

/-- The chunk that a position is in. -/
theorem At.of_cons (h : At chunks o ⟨bs :: ahead, chunk, within⟩) :
    ∃ before bs', chunks = before ++ bs' :: ahead ∧ chunk = before.length ∧
      o = before.flatten.length + within ∧ bs = bs'.drop within ∧
      bs.length + within = bs'.length := by
  obtain ⟨before, after, rfl, ⟨hchunk, hoffset, hfront⟩, hahead⟩ := h
  cases after with
  | nil => cases hahead
  | cons bs' later =>
    obtain ⟨rfl, rfl⟩ : bs = bs'.drop within ∧ ahead = later := List.cons.inj hahead
    have hlt : within < bs'.length := hfront
    refine ⟨before, bs', rfl, hchunk, hoffset, rfl, ?_⟩
    rw [List.length_drop]
    omega

/-- At the end of its chunk a position goes on to the next one. -/
theorem At.next (h : At chunks o ⟨bs :: ahead, chunk, within⟩) (hne : ∀ bs ∈ chunks, bs ≠ []) :
    At chunks (o + bs.length) ⟨ahead, chunk + 1, 0⟩ := by
  obtain ⟨before, bs', rfl, hchunk, hoffset, -, hlen⟩ := h.of_cons
  have hahead : ∀ bs ∈ ahead, bs ≠ [] := fun bs hbs => hne bs (by simp [hbs])
  refine ⟨before ++ [bs'], ahead, by simp, ⟨by simp [hchunk], ?_, inFront_zero hahead⟩, ?_⟩
  · simp only [List.flatten_append, List.flatten_singleton, List.length_append]
    omega
  · cases ahead <;> rfl

/-- Before the end of its chunk a position moves on in it. -/
theorem At.move (h : At chunks o ⟨bs :: ahead, chunk, within⟩) (hn : n < bs.length) :
    At chunks (o + n) ⟨bs.drop n :: ahead, chunk, within + n⟩ := by
  obtain ⟨before, bs', rfl, hchunk, hoffset, hbs, hlen⟩ := h.of_cons
  refine ⟨before, bs' :: ahead, rfl, ⟨hchunk, ?_, ?_⟩, ?_⟩
  · show o + n = before.flatten.length + (within + n)
    omega
  · show within + n < bs'.length
    omega
  · show bs.drop n :: ahead = bs'.drop (within + n) :: ahead
    rw [hbs, List.drop_drop]

/-- Walking over `n` bytes passes these and goes to the place after them. -/
theorem walk_spec (passed : List Bytes) (hne : ∀ bs ∈ chunks, bs ≠ [])
    (h : At chunks o ⟨ahead, chunk, within⟩) (hn : n ≤ ahead.flatten.length) :
    (walk n passed ahead chunk within).1.reverse.flatten =
        passed.reverse.flatten ++ ahead.flatten.take n ∧
      (walk n passed ahead chunk within).2.At chunks (o + n) := by
  induction ahead generalizing n o chunk within passed with
  | nil =>
    obtain rfl : n = 0 := by simpa using hn
    exact ⟨by simp [walk], h⟩
  | cons bs ahead ih =>
    rw [walk]
    split
    case h_1 hnil =>
      have hle : bs.length ≤ n := List.drop_eq_nil_iff.1 hnil
      rw [List.flatten_cons, List.length_append] at hn
      obtain ⟨hbytes, hat⟩ := ih (bs :: passed) (h.next hne) (n := n - bs.length) (by omega)
      refine ⟨?_, ?_⟩
      · rw [hbytes, List.flatten_cons, List.take_append, List.take_of_length_le hle]
        simp
      · rwa [show o + bs.length + (n - bs.length) = o + n by omega] at hat
    case h_2 rest hrest =>
      have hlt : n < bs.length :=
        Nat.lt_of_not_le fun hle => hrest (List.drop_eq_nil_of_le hle)
      refine ⟨?_, h.move hlt⟩
      simp [List.take_append_of_le_length (Nat.le_of_lt hlt)]

end

/-- Advancing by `n` bytes gives these and goes to the place after them. -/
theorem advance_spec {chunks : List Bytes} {n o : Nat} {p : ChunkPosition}
    (hne : ∀ bs ∈ chunks, bs ≠ []) (h : p.At chunks o)
    (hn : n ≤ (chunks.flatten.drop o).length) :
    (p.advance n).1 = (chunks.flatten.drop o).take n ∧ (p.advance n).2.At chunks (o + n) := by
  rw [← h.flatten_ahead] at hn ⊢
  exact walk_spec [] hne h hn

end ChunkPosition

/-! ## Queues -/

namespace ChunkStore

/-- The bytes of the chunks that are not consumed. -/
def toBytes (s : ChunkStore) : Bytes := s.chunks.flatten.drop s.consumed

/-- The counters tell how many bytes there are. -/
theorem WellFormed.length_toBytes {s : ChunkStore} (h : s.WellFormed) :
    s.toBytes.length = s.stored - s.consumed := by
  rw [toBytes, List.length_drop, h.stored_eq]

theorem toBytes_push {s : ChunkStore} (h : s.WellFormed) (chunk : Bytes) :
    (s.push chunk).toBytes = s.toBytes ++ chunk := by
  have hle : s.consumed ≤ s.chunks.flatten.length := (flatten_chunksFrom h.consumed_inFront).2
  by_cases hchunk : chunk = []
  · simp [push, hchunk]
  · simp [push, toBytes, hchunk, List.drop_append_of_le_length hle]

/-- The loop drops exactly the bytes that it is to drop, and the chunks that it keeps are uncut. -/
theorem discardFrom_spec {chunks : List Bytes} {consumed : Nat} (h : InFront consumed chunks)
    (hne : ∀ bs ∈ chunks, bs ≠ []) (n stored : Nat) :
    (discardFrom chunks n consumed stored).toBytes = (chunks.flatten.drop consumed).drop n ∧
      (discardFrom chunks n consumed stored).chunks <:+ chunks := by
  induction chunks generalizing n consumed stored with
  | nil => simp [discardFrom, toBytes]
  | cons bs later ih =>
    have hlt : consumed < bs.length := h
    have hlater : ∀ bs ∈ later, bs ≠ [] := fun bs hbs => hne bs (List.mem_cons_of_mem _ hbs)
    unfold discardFrom
    split
    case isTrue hzero => simp [toBytes, hzero]
    case isFalse =>
      split
      case isTrue => simp [toBytes, List.drop_drop]
      case isFalse hge =>
        obtain ⟨hbytes, hsuffix⟩ := ih (inFront_zero hlater) hlater (n - (bs.length - consumed))
          (stored - bs.length)
        refine ⟨?_, hsuffix.trans (List.suffix_cons bs later)⟩
        have hsplit : consumed + n = bs.length + (n - (bs.length - consumed)) := by omega
        rw [hbytes, List.drop_zero, List.drop_drop, hsplit, List.flatten_cons, ← List.drop_drop,
          List.drop_left]

end ChunkStore

namespace ByteQueue

/-- The bytes that a queue holds. -/
def toBytes (q : ByteQueue) : Bytes := q.toChunkStore.toBytes

variable (q : ByteQueue)

theorem size_eq : q.size = q.toBytes.length := q.wellFormed.length_toBytes.symm

theorem drop_toBytes (o : Nat) : q.toBytes.drop o = q.chunks.flatten.drop (q.consumed + o) := by
  rw [toBytes, ChunkStore.toBytes, List.drop_drop]

@[simp] theorem toBytes_push (chunk : Bytes) : (q.push chunk).toBytes = q.toBytes ++ chunk :=
  ChunkStore.toBytes_push q.wellFormed chunk

/-- Taking bytes off the front leaves the bytes after them. -/
@[simp] theorem toBytes_discard (n : Nat) : (q.discard n).toBytes = q.toBytes.drop n :=
  (ChunkStore.discardFrom_spec q.wellFormed.consumed_inFront q.wellFormed.chunks_ne n _).1

theorem chunks_discard (n : Nat) : (q.discard n).chunks <:+ q.chunks :=
  (ChunkStore.discardFrom_spec q.wellFormed.consumed_inFront q.wellFormed.chunks_ne n _).2

/-- The queue with chunks added, one after the other. -/
def pushAll (chunks : List Bytes) : ByteQueue := chunks.foldl push q

theorem toBytes_pushAll (chunks : List Bytes) :
    (q.pushAll chunks).toBytes = q.toBytes ++ chunks.flatten := by
  induction chunks generalizing q with
  | nil => simp [pushAll]
  | cons bs chunks ih =>
    show ((q.push bs).pushAll chunks).toBytes = _
    simp [ih]

variable {q} {n : Nat}

theorem check_of_le (h : n ≤ q.toBytes.length) : q.check n = .ok () := by
  rw [check, size_eq, if_neg (Nat.not_lt.2 h)]

theorem check_of_lt (h : q.toBytes.length < n) : q.check n = .error ⟨0, n, q.toBytes.length⟩ := by
  rw [check, size_eq, if_pos h]

theorem skip_of_le (h : n ≤ q.toBytes.length) : q.skip n = (.ok (), q.discard n) := by
  simp [skip, check_of_le h]

end ByteQueue

/-! ## Cursors -/

/-- The cursor is `o` bytes behind the front of the queue. -/
structure Cursor.At (q : ByteQueue) (o : Nat) (c : Cursor) : Prop where
  position_at : c.position.At q.chunks (q.consumed + o)
  offset_eq : c.offset = o
  size_eq : c.size = q.size

/-- The mark saves the place `o` bytes behind the front of the queue. -/
def Mark.At (q : ByteQueue) (o : Nat) (m : Mark) : Prop :=
  m.offset = o ∧ ∃ before after, q.chunks = before ++ after ∧
    PlaceAt (q.consumed + o) m.chunk m.within before after

namespace Cursor

theorem at_cursor (q : ByteQueue) : Cursor.At q 0 q.cursor :=
  ⟨⟨[], q.chunks, rfl, ⟨rfl, Nat.add_comm _ _, q.wellFormed.consumed_inFront⟩, rfl⟩, rfl, rfl⟩

variable {q : ByteQueue} {o n : Nat} {c c' : Cursor}

theorem At.mark (h : c.At q o) : c.mark.At q o := by
  obtain ⟨before, after, hchunks, hplace, -⟩ := h.position_at
  exact ⟨h.offset_eq, before, after, hchunks, hplace⟩

/-- A saved place is resumed. -/
theorem at_cursorAt {m : Mark} (h : m.At q o) : (q.cursorAt m).At q o := by
  obtain ⟨hoffset, before, after, hchunks, hplace⟩ := h
  refine ⟨⟨before, after, hchunks, hplace, ?_⟩, hoffset, rfl⟩
  show chunksFrom m.within (q.chunks.drop m.chunk) = chunksFrom m.within after
  rw [hchunks, hplace.chunk_eq, List.drop_left]

/-- Cursors as far from the front of a queue are the same. -/
theorem At.eq (h : c.At q o) (h' : c'.At q o) : c = c' := by
  have hposition := h.position_at.eq h'.position_at
  have hoffset := h.offset_eq.trans h'.offset_eq.symm
  have hsize := h.size_eq.trans h'.size_eq.symm
  cases c
  cases c'
  simp_all

theorem At.offset_le (h : c.At q o) : o ≤ q.toBytes.length := by
  have hle := h.position_at.offset_le
  rw [ByteQueue.toBytes, ChunkStore.toBytes, List.length_drop]
  omega

theorem At.remaining_eq (h : c.At q o) : c.remaining = (q.toBytes.drop o).length := by
  rw [remaining, h.size_eq, h.offset_eq, q.size_eq, List.length_drop]

/-- A cursor advances over what comes next. -/
theorem At.advance (h : c.At q o) (hn : n ≤ (q.toBytes.drop o).length) :
    (c.position.advance n).1 = (q.toBytes.drop o).take n ∧
      (c.position.advance n).2.At q.chunks (q.consumed + (o + n)) := by
  rw [q.drop_toBytes] at hn ⊢
  rw [← Nat.add_assoc]
  exact ChunkPosition.advance_spec q.wellFormed.chunks_ne h.position_at hn

/-- A cursor reads what comes next, and moves behind it. -/
theorem read_of_le (h : c.At q o) (hn : n ≤ (q.toBytes.drop o).length) :
    ∃ c', c.read n = (.ok ((q.toBytes.drop o).take n), c') ∧ c'.At q (o + n) := by
  obtain ⟨hbytes, hat⟩ := h.advance hn
  have hle : ¬c.remaining < n := by
    rw [h.remaining_eq]
    omega
  refine ⟨⟨(c.position.advance n).2, c.offset + n, c.size⟩, ?_, hat, ?_, h.size_eq⟩
  · rw [read, if_neg hle]
    exact congrArg (fun bs => (Except.ok bs, _)) hbytes
  · rw [h.offset_eq]

theorem read_of_lt (h : c.At q o) (hn : (q.toBytes.drop o).length < n) :
    c.read n = (.error ⟨o, n, (q.toBytes.drop o).length⟩, c) := by
  rw [read, h.remaining_eq, if_pos hn, h.offset_eq]

/-- The next byte is the one that the cursor's counters index. -/
theorem At.read_one (h : c.At q o) (hpos : 0 < c.remaining) :
    ∃ bs b, q.chunks[c.position.chunk]? = some bs ∧ bs[c.position.within]? = some b ∧
      (c.read 1).1 = .ok [b] := by
  have hlen : 0 < (q.toBytes.drop o).length := h.remaining_eq ▸ hpos
  obtain ⟨c', hread, -⟩ := read_of_le h hlen
  obtain ⟨before, after, hchunks, hplace, -⟩ := h.position_at
  have hbytes := hplace.flatten_after
  have hfront := hplace.inFront
  rw [← hchunks, ← q.drop_toBytes] at hbytes
  cases after with
  | nil => simp [← hbytes, chunksFrom] at hlen
  | cons bs later =>
    have hlt : c.position.within < bs.length := hfront
    refine ⟨bs, bs[c.position.within], ?_, List.getElem?_eq_getElem hlt, ?_⟩
    · simp [hchunks, hplace.chunk_eq]
    · rw [hread, ← hbytes, chunksFrom, List.drop_eq_getElem_cons hlt]
      rfl

end Cursor

namespace Mark.At

variable {q : ByteQueue} {o : Nat} {m : Mark}

/-- A saved place stays good when chunks are pushed. -/
theorem push (h : m.At q o) (chunk : Bytes) : m.At (q.push chunk) o := by
  obtain ⟨hoffset, before, after, hchunks, hplace⟩ := h
  by_cases hchunk : chunk = []
  · exact ⟨hoffset, before, after, by simpa [ByteQueue.push, ChunkStore.push, hchunk] using hchunks,
      by simpa [ByteQueue.push, ChunkStore.push, hchunk] using hplace⟩
  · have hone : ∀ bs ∈ [chunk], bs ≠ [] := by simpa using hchunk
    refine ⟨hoffset, before, after ++ [chunk], ?_, ?_⟩
    · simp [ByteQueue.push, ChunkStore.push, hchunk, hchunks]
    · simpa [ByteQueue.push, ChunkStore.push, hchunk] using hplace.append hone

/-- A saved place stays good when chunks are pushed one after the other. -/
theorem pushAll (h : m.At q o) (chunks : List Bytes) : m.At (q.pushAll chunks) o := by
  induction chunks generalizing q with
  | nil => exact h
  | cons bs chunks ih => exact ih (h.push bs)

end Mark.At

end MessagePack
