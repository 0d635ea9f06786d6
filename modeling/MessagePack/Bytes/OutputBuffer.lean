import MessagePack.Bytes

/-!
# Output buffers

A buffer that collects output until it is handed out, and grows as needed. What is written goes
behind what is there already; a flush only moves the beginning of the pending part. When the room
at the end is too small, the pending bytes move to the front of a new buffer and those before them
are forgotten.
-/

namespace MessagePack

/-- An output buffer. The pending bytes lie in it, and it is no smaller than its allocation. -/
structure OutputBuffer where
  /-- The smallest size of a buffer. -/
  allocation : Nat
  /-- The size of the buffer. -/
  capacity : Nat
  /-- The written part of the buffer, from its front. -/
  written : Array UInt8
  /-- The number of written bytes that are flushed; those behind them are pending. -/
  start : Nat
  start_le : start ≤ written.size
  size_le : written.size ≤ capacity
  allocation_le : allocation ≤ capacity

namespace OutputBuffer

/-- The allocation of a buffer for which none is given. -/
def defaultAllocation : Nat := 64 * 1024

/-- An empty buffer; the allocation is at least 16. -/
def ofAllocation (allocation : Nat) : OutputBuffer :=
  ⟨max allocation 16, max allocation 16, #[], 0, Nat.le_refl _, Nat.zero_le _, Nat.le_refl _⟩

/-- Where the next byte goes. -/
def stop (w : OutputBuffer) : Nat := w.written.size

/-- The pending bytes. -/
def pending (w : OutputBuffer) : Bytes := w.written.toList.drop w.start

/-- The number of pending bytes. -/
def length (w : OutputBuffer) : Nat := w.stop - w.start

/-- Whether nothing is pending. -/
def isEmpty (w : OutputBuffer) : Bool := w.start == w.stop

/-- The size for so many pending bytes. -/
def sizeFor (allocation needed : Nat) : Nat :=
  if needed ≤ allocation then allocation else 2 * needed

theorem le_sizeFor (allocation needed : Nat) :
    needed ≤ sizeFor allocation needed ∧ allocation ≤ sizeFor allocation needed := by
  unfold sizeFor
  split <;> omega

/-- How many bytes are pending once `n` more are, where these are too many for the room that is
left: what lies behind the flushed bytes, and what is missing. -/
def needed (n : Nat) (w : OutputBuffer) : Nat :=
  w.capacity - w.start + (n - (w.capacity - w.stop))

theorem needed_eq {w : OutputBuffer} {n : Nat} (h : w.capacity - w.stop < n) :
    w.needed n = w.length + n := by
  have hstart : w.start ≤ w.stop := w.start_le
  have hstop : w.stop ≤ w.capacity := w.size_le
  unfold needed length
  omega

/-- Moves the pending bytes to the front of a buffer that has room for `n` more. -/
def grow (n : Nat) (w : OutputBuffer) (h : w.capacity - w.stop < n) : OutputBuffer where
  allocation := w.allocation
  capacity := sizeFor w.allocation (w.needed n)
  written := w.written.extract w.start
  start := 0
  start_le := Nat.zero_le _
  size_le := by
    have hneeded := (le_sizeFor w.allocation (w.needed n)).1
    have hmoved : (w.written.extract w.start).size = w.length := by simp [length, stop]
    rw [needed_eq h] at hneeded ⊢
    omega
  allocation_le := (le_sizeFor _ _).2

theorem capacity_grow {w : OutputBuffer} {n : Nat} (h : w.capacity - w.stop < n) :
    (w.grow n h).capacity = sizeFor w.allocation (w.length + n) :=
  congrArg (sizeFor w.allocation) (needed_eq h)

theorem stop_grow {w : OutputBuffer} {n : Nat} (h : w.capacity - w.stop < n) :
    (w.grow n h).stop = w.length := by
  simp [grow, length, stop]

/-- Makes room for `n` more bytes. -/
def reserve (n : Nat) (w : OutputBuffer) : OutputBuffer :=
  if h : w.capacity - w.stop < n then w.grow n h else w

theorem reserve_of_le {w : OutputBuffer} {n : Nat} (h : n ≤ w.capacity - w.stop) :
    w.reserve n = w :=
  dif_neg (Nat.not_lt.2 h)

theorem reserve_of_lt {w : OutputBuffer} {n : Nat} (h : w.capacity - w.stop < n) :
    w.reserve n = w.grow n h :=
  dif_pos h

/-- There is room for what is reserved. -/
theorem room_reserve (n : Nat) (w : OutputBuffer) :
    (w.reserve n).stop + n ≤ (w.reserve n).capacity := by
  by_cases h : w.capacity - w.stop < n
  · rw [reserve_of_lt h, stop_grow, capacity_grow]
    exact (le_sizeFor w.allocation (w.length + n)).1
  · have hstop : w.stop ≤ w.capacity := w.size_le
    rw [reserve_of_le (Nat.not_lt.1 h)]
    omega

theorem size_append (written : Array UInt8) (bs : Bytes) :
    (written ++ bs).size = written.size + bs.length := by
  simp [← Array.length_toList]

/-- Writes bytes where there is room for them. -/
def append (bs : Bytes) (w : OutputBuffer) (h : w.stop + bs.length ≤ w.capacity) : OutputBuffer :=
  { w with
    written := w.written ++ bs
    start_le := size_append w.written bs ▸ Nat.le_add_right_of_le w.start_le
    size_le := size_append w.written bs ▸ h }

/-- Appends bytes. -/
def put (bs : Bytes) (w : OutputBuffer) : OutputBuffer :=
  (w.reserve bs.length).append bs (w.room_reserve bs.length)

/-- Appends the `width` low bytes of a number, big-endian. -/
def putNumber (width n : Nat) (w : OutputBuffer) : OutputBuffer := w.put (bigEndian width n)

/-- Appends a marker byte and a number after it. -/
def putMarked (marker : UInt8) (width n : Nat) (w : OutputBuffer) : OutputBuffer :=
  w.put (marker :: bigEndian width n)

/-- Hands out the pending bytes. -/
def flush (w : OutputBuffer) : Bytes × OutputBuffer :=
  (w.pending, { w with start := w.stop, start_le := Nat.le_refl _ })

/-- Drops the pending bytes. -/
def reset (w : OutputBuffer) : OutputBuffer :=
  { w with
    written := w.written.take w.start
    start_le := by simpa using Nat.le_min.2 ⟨Nat.le_refl _, w.start_le⟩
    size_le := by simpa using Nat.le_trans (Nat.min_le_right _ _) w.size_le }

/-! ## Pending bytes -/

/-- Growing keeps the pending bytes. -/
@[simp] theorem pending_reserve (n : Nat) (w : OutputBuffer) :
    (w.reserve n).pending = w.pending := by
  by_cases h : w.capacity - w.stop < n
  · have hlen : (w.written.toList.drop w.start).length ≤ w.written.size - w.start := by simp
    simp [reserve_of_lt h, grow, pending, Array.toList_extract, List.take_of_length_le hlen]
  · rw [reserve_of_le (Nat.not_lt.1 h)]

@[simp] theorem pending_put (bs : Bytes) (w : OutputBuffer) :
    (w.put bs).pending = w.pending ++ bs := by
  have hstart : (w.reserve bs.length).start ≤ (w.reserve bs.length).written.toList.length :=
    (w.reserve bs.length).start_le
  have hpending : (w.reserve bs.length).pending = w.pending := pending_reserve bs.length w
  simp only [pending] at hpending
  simp only [put, append, pending, Array.toList_appendList, List.drop_append_of_le_length hstart,
    hpending]

@[simp] theorem pending_flush (w : OutputBuffer) : w.flush.2.pending = [] := by
  simp [flush, pending, stop]

@[simp] theorem pending_reset (w : OutputBuffer) : w.reset.pending = [] := by
  simp [reset, pending]

end OutputBuffer

end MessagePack
