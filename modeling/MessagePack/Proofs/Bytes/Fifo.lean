import Mathlib.Algebra.GroupWithZero.Nat
import MessagePack.Proofs.Bytes.Queue

/-!
# First in, first out

A queue gives bytes in the order in which they came, however they were cut into chunks and however
many a call takes. What it keeps are the latest of the chunks that came, uncut.

* `ByteQueue.Call`, `ByteQueue.after`: what can be done with a queue, and the queue after that.
* `ByteQueue.first_in_first_out`: every call on every queue that calls can reach.
-/

namespace MessagePack.ByteQueue

/-! ## Calls -/

/-- What can be done with a queue. -/
inductive Call where
  | push (chunk : Bytes)
  | peek
  | byte
  | read (n : Nat)
  | skip (n : Nat)

/-- The queue after a call. -/
def apply (q : ByteQueue) : Call → ByteQueue
  | .push chunk => q.push chunk
  | .peek => q
  | .byte => q.byte.2
  | .read n => (q.read n).2
  | .skip n => (q.skip n).2

/-- The queue after calls, one after the other. -/
def after (calls : List Call) : ByteQueue := calls.foldl apply empty

/-- The front bytes dropped, of which there are enough, or none. -/
def dropFront (n : Nat) (bs : Bytes) : Bytes := if bs.length < n then bs else bs.drop n

namespace Call

/-- What is queued after a call, however it is cut. -/
def leaves (bs : Bytes) : Call → Bytes
  | push chunk => bs ++ chunk
  | peek => bs
  | byte => dropFront 1 bs
  | read n | skip n => dropFront n bs

/-- The chunks that a call adds. -/
def brings : Call → List Bytes
  | push [] => []
  | push chunk => [chunk]
  | _ => []

/-- How many bytes a call needs. -/
def wants : Call → Nat
  | push _ => 0
  | peek | byte => 1
  | read n | skip n => n

/-- How many bytes a call gives. -/
def shows : Call → Nat
  | push _ | skip _ => 0
  | peek | byte => 1
  | read n => n

/-- How many bytes a call removes. -/
def takes : Call → Nat
  | push _ | peek => 0
  | byte => 1
  | read n | skip n => n

/-- The bytes that a call removes: none if there are too few. -/
def removes (bs : Bytes) (call : Call) : Bytes :=
  if bs.length < call.wants then [] else bs.take call.takes

theorem takes_le_wants (call : Call) : call.takes ≤ call.wants := by
  cases call <;> simp [takes, wants]

theorem flatten_brings_push (chunk : Bytes) : (push chunk).brings.flatten = chunk := by
  cases chunk <;> simp [brings]

/-- With the bytes that it needs, a call leaves what is behind those it removes. -/
theorem leaves_of_le {bs : Bytes} {call : Call} (h : call.wants ≤ bs.length) :
    call.leaves bs = (bs ++ call.brings.flatten).drop call.takes := by
  cases call with
  | push chunk =>
    rw [flatten_brings_push]
    rfl
  | peek => simp [leaves, brings, takes]
  | byte | read n | skip n =>
    show dropFront _ bs = (bs ++ []).drop _
    rw [List.append_nil]
    exact if_neg (Nat.not_lt.2 h)

theorem leaves_of_lt {bs : Bytes} {call : Call} (h : bs.length < call.wants) :
    call.leaves bs = bs := by
  cases call with
  | push chunk => cases h
  | peek => rfl
  | byte | read n | skip n => exact if_pos h

theorem brings_of_lt {bs : Bytes} {call : Call} (h : bs.length < call.wants) : call.brings = [] := by
  cases call <;> first | rfl | cases h

/-- A call removes bytes from the front and adds bytes at the end. -/
theorem removes_append_leaves (bs : Bytes) (call : Call) :
    call.removes bs ++ call.leaves bs = bs ++ call.brings.flatten := by
  unfold removes
  split
  case isTrue hlt => simp [leaves_of_lt hlt, brings_of_lt hlt]
  case isFalse hle =>
    have hwants : call.wants ≤ bs.length := Nat.not_lt.1 hle
    have htakes : call.takes ≤ bs.length := Nat.le_trans call.takes_le_wants hwants
    rw [leaves_of_le hwants, List.drop_append_of_le_length htakes, ← List.append_assoc,
      List.take_append_drop]

end Call

/-- The chunks that calls have brought, the empty ones left out. -/
def arrivals (calls : List Call) : List Bytes := calls.flatMap Call.brings

/-- What is queued after calls, one after the other. -/
def unread (calls : List Call) : Bytes := calls.foldl Call.leaves []

/-- The bytes that calls remove, one after the other. -/
def departed (bs : Bytes) : List Call → Bytes
  | [] => []
  | call :: calls => call.removes bs ++ departed (call.leaves bs) calls

/-- Bytes leave in the order in which they came. -/
theorem departed_append_foldl (bs : Bytes) (calls : List Call) :
    departed bs calls ++ calls.foldl Call.leaves bs = bs ++ (arrivals calls).flatten := by
  induction calls generalizing bs with
  | nil => simp [departed, arrivals]
  | cons call calls ih =>
    rw [departed, List.foldl_cons, List.append_assoc, ih, ← List.append_assoc,
      Call.removes_append_leaves]
    simp [arrivals]

/-! ## Answers -/

/-- The bytes that a call gives. -/
def answer (q : ByteQueue) : Call → Except ShortRead Bytes
  | .push _ => .ok []
  | .peek => q.peek.map ([·])
  | .byte => q.byte.1.map ([·])
  | .read n => (q.read n).1
  | .skip n => (q.skip n).1.map fun () => []

section

variable {q : ByteQueue} {n : Nat}

theorem peek_of_cons {b : UInt8} {bs : Bytes} (hq : q.toBytes = b :: bs) : q.peek = .ok b := by
  have hcheck : q.check 1 = .ok () := check_of_le (by simp [hq])
  obtain ⟨front, later, hchunks, hlt⟩ := consumed_lt hcheck
  have hfront : q.toBytes = front[q.consumed] :: (front.drop (q.consumed + 1) ++ later.flatten) := by
    rw [toBytes, ChunkStore.toBytes, hchunks, List.flatten_cons,
      List.drop_append_of_le_length (Nat.le_of_lt hlt), List.drop_eq_getElem_cons hlt]
    rfl
  rw [hfront] at hq
  obtain ⟨rfl, -⟩ := List.cons.inj hq
  unfold peek
  split
  case h_1 herror =>
    rw [hcheck] at herror
    cases herror
  case h_2 => simp [hchunks]

theorem peek_of_nil (hq : q.toBytes.length < 1) : q.peek = .error ⟨0, 1, q.toBytes.length⟩ := by
  have hcheck : q.check 1 = .error ⟨0, 1, q.toBytes.length⟩ := check_of_lt hq
  unfold peek
  split
  case h_1 herror =>
    rw [hcheck] at herror
    cases herror
    rfl
  case h_2 hok =>
    rw [hcheck] at hok
    cases hok

theorem byte_of_cons {b : UInt8} {bs : Bytes} (hq : q.toBytes = b :: bs) :
    q.byte = (.ok b, q.discard 1) := by
  rw [byte, peek_of_cons hq]

theorem byte_of_nil (hq : q.toBytes.length < 1) :
    q.byte = (.error ⟨0, 1, q.toBytes.length⟩, q) := by
  rw [byte, peek_of_nil hq]

theorem read_of_le (h : n ≤ q.toBytes.length) : q.read n = (.ok (q.toBytes.take n), q.discard n) := by
  obtain ⟨c, hread, -⟩ := Cursor.read_of_le (Cursor.at_cursor q) (n := n) h
  rw [read, hread]
  rfl

theorem read_of_lt (h : q.toBytes.length < n) :
    q.read n = (.error ⟨0, n, q.toBytes.length⟩, q) := by
  have hread : q.cursor.read n = (.error ⟨0, n, q.toBytes.length⟩, q.cursor) :=
    Cursor.read_of_lt (Cursor.at_cursor q) h
  rw [read, hread]

theorem skip_of_lt (h : q.toBytes.length < n) :
    q.skip n = (.error ⟨0, n, q.toBytes.length⟩, q) := by
  rw [skip, check_of_lt h]

/-- With the bytes that it needs, a call gives the first of them and removes so many as it takes. -/
theorem answer_of_le {call : Call} (h : call.wants ≤ q.toBytes.length) :
    q.answer call = .ok (q.toBytes.take call.shows) ∧
      (q.apply call).toBytes = (q.toBytes ++ call.brings.flatten).drop call.takes ∧
      (q.apply call).chunks <:+ q.chunks ++ call.brings := by
  have hdiscard : ∀ n, (q.discard n).toBytes = (q.toBytes ++ []).drop n ∧
      (q.discard n).chunks <:+ q.chunks ++ [] := fun n => by
    simpa using q.chunks_discard n
  cases call with
  | push chunk =>
    refine ⟨rfl, ?_, ?_⟩
    · rw [Call.flatten_brings_push]
      exact toBytes_push q chunk
    · cases chunk <;> simp [apply, push, ChunkStore.push, Call.brings]
  | peek =>
    obtain ⟨b, bs, hq⟩ := List.exists_cons_of_length_pos h
    refine ⟨?_, by simp [apply, Call.brings, Call.takes], by simp [apply, Call.brings]⟩
    simp [answer, peek_of_cons hq, hq, Call.shows, Except.map]
  | byte =>
    obtain ⟨b, bs, hq⟩ := List.exists_cons_of_length_pos h
    rw [answer, apply, byte_of_cons hq]
    exact ⟨by simp [hq, Call.shows, Except.map], hdiscard 1⟩
  | read n =>
    rw [answer, apply, read_of_le (n := n) h]
    exact ⟨rfl, hdiscard n⟩
  | skip n =>
    rw [answer, apply, skip_of_le (n := n) h]
    exact ⟨rfl, hdiscard n⟩

/-- With fewer bytes than it needs, a call reports these and changes nothing. -/
theorem answer_of_lt {call : Call} (h : q.toBytes.length < call.wants) :
    q.answer call = .error ⟨0, call.wants, q.toBytes.length⟩ ∧ q.apply call = q := by
  cases call with
  | push chunk => cases h
  | peek => exact ⟨by rw [answer, peek_of_nil h]; rfl, rfl⟩
  | byte => exact ⟨by rw [answer, byte_of_nil h]; rfl, by rw [apply, byte_of_nil h]⟩
  | read n => exact ⟨by rw [answer, read_of_lt (n := n) h]; rfl, by rw [apply, read_of_lt (n := n) h]⟩
  | skip n => exact ⟨by rw [answer, skip_of_lt (n := n) h]; rfl, by rw [apply, skip_of_lt (n := n) h]⟩

/-- What one call does to the bytes of a queue and to its chunks. -/
theorem apply_spec (q : ByteQueue) (call : Call) :
    (q.apply call).toBytes = call.leaves q.toBytes ∧
      (q.apply call).chunks <:+ q.chunks ++ call.brings := by
  by_cases hlt : q.toBytes.length < call.wants
  · rw [(answer_of_lt hlt).2, Call.leaves_of_lt hlt]
    exact ⟨rfl, (Call.brings_of_lt hlt).symm ▸ by simp⟩
  · obtain ⟨-, hbytes, hchunks⟩ := answer_of_le (Nat.le_of_not_lt hlt)
    exact ⟨hbytes.trans (Call.leaves_of_le (Nat.le_of_not_lt hlt)).symm, hchunks⟩

/-- What calls, one after the other, do to the bytes of a queue and to its chunks. -/
theorem foldl_spec (q : ByteQueue) (calls : List Call) :
    (calls.foldl apply q).toBytes = calls.foldl Call.leaves q.toBytes ∧
      (calls.foldl apply q).chunks <:+ q.chunks ++ arrivals calls := by
  induction calls generalizing q with
  | nil => simp [arrivals]
  | cons call calls ih =>
    obtain ⟨hbytes, gone, hgone⟩ := q.apply_spec call
    obtain ⟨hbytes', hsuffix⟩ := ih (q.apply call)
    rw [hbytes] at hbytes'
    refine ⟨hbytes', hsuffix.trans ⟨gone, ?_⟩⟩
    rw [← List.append_assoc, hgone, List.append_assoc]
    rfl

end

theorem toBytes_after (calls : List Call) : (after calls).toBytes = unread calls :=
  (empty.foldl_spec calls).1

/-- A queue keeps the latest of the chunks that came. -/
theorem chunks_after (calls : List Call) : (after calls).chunks <:+ arrivals calls :=
  (empty.foldl_spec calls).2

/-! ## Every call on every queue -/

/-- Whatever calls have been made, the bytes that came are those that have left and, behind them,
those that are queued, and the queue knows how many these are. It keeps the latest of the chunks
that came, uncut: none is empty, their lengths make up what is stored, and the consumed bytes end
before the first of them does. The loop that drops bytes drops as many as it is told. A call that
has the bytes it needs gives the front ones and removes so many of them as it takes; any other
reports how many it needs and how many there are, and changes nothing. -/
theorem first_in_first_out (calls : List Call) :
    let q := after calls
    let bs := unread calls
    (arrivals calls).flatten = departed [] calls ++ bs ∧
      q.toBytes = bs ∧ q.size = bs.length ∧ q.consumed ≤ q.stored ∧
      q.chunks <:+ arrivals calls ∧ (∀ chunk ∈ q.chunks, chunk ≠ []) ∧
      q.stored = (q.chunks.map List.length).sum ∧ InFront q.consumed q.chunks ∧
      (∀ n ≤ bs.length, (q.discard n).toBytes = bs.drop n ∧ (q.discard n).size + n = q.size) ∧
      ∀ call : Call,
        (call.wants ≤ bs.length →
          q.answer call = .ok (bs.take call.shows) ∧
            (q.apply call).toBytes = (bs ++ call.brings.flatten).drop call.takes ∧
            (q.apply call).size + call.takes = q.size + call.brings.flatten.length) ∧
        (bs.length < call.wants →
          q.answer call = .error ⟨0, call.wants, bs.length⟩ ∧ q.apply call = q) := by
  intro q bs
  have hbytes : q.toBytes = bs := toBytes_after calls
  have hsize : q.size = bs.length := by rw [size_eq, hbytes]
  have hstored : q.stored = (q.chunks.map List.length).sum := by
    rw [q.wellFormed.stored_eq, List.length_flatten]
  refine ⟨(departed_append_foldl [] calls).symm, hbytes, hsize, q.wellFormed.consumed_le,
    chunks_after calls, q.wellFormed.chunks_ne, hstored, q.wellFormed.consumed_inFront,
    fun n hn => ?_, fun call => ⟨fun hle => ?_, fun hlt => ?_⟩⟩
  · rw [size_eq, toBytes_discard, hbytes, hsize, List.length_drop]
    exact ⟨rfl, by omega⟩
  · rw [← hbytes] at hle
    obtain ⟨hanswer, hleaves, -⟩ := answer_of_le hle
    have htakes : call.takes ≤ q.toBytes.length := Nat.le_trans call.takes_le_wants hle
    refine ⟨hbytes ▸ hanswer, hbytes ▸ hleaves, ?_⟩
    rw [size_eq, size_eq, hleaves, List.length_drop, List.length_append]
    omega
  · rw [← hbytes] at hlt ⊢
    exact answer_of_lt hlt

/-- Three chunks and an empty one between them, the first begun: a read over all of them, and a skip
past their end. -/
theorem first_in_first_out_chunks :
    let calls := [.push [1, 2], .push [], .byte, .push [3], .push [4, 5]]
    let q := after calls
    (Call.read 3).wants ≤ (unread calls).length ∧ (unread calls).length < (Call.skip 5).wants ∧
      q.answer (.read 3) = .ok [2, 3, 4] ∧ (q.apply (.read 3)).toBytes = [5] ∧
      q.answer (.skip 5) = .error ⟨0, 5, 4⟩ ∧ q.apply (.skip 5) = q := by
  intro calls q
  have henough : (Call.read 3).wants ≤ (unread calls).length := by decide
  have hshort : (unread calls).length < (Call.skip 5).wants := by decide
  obtain ⟨-, -, -, -, -, -, -, -, -, hcalls⟩ := first_in_first_out calls
  obtain ⟨hread, hrest, -⟩ := (hcalls (.read 3)).1 henough
  obtain ⟨hskip, hsame⟩ := (hcalls (.skip 5)).2 hshort
  exact ⟨henough, hshort, hread, hrest, hskip, hsame⟩

end MessagePack.ByteQueue
