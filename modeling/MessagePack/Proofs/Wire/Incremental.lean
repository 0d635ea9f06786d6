import MessagePack.Proofs.Wire.Scan
import MessagePack.Proofs.Wire.Truncation

/-!
# Incremental decoding refines decoding

Whatever was pushed, taken and cleared before, an incremental decoder answers as decoding the bytes
that wait would: with the value at their beginning, with nothing if bytes are missing, or with the
error, counted from the beginning of the stream.

* `Progress`: what calls come to, told by decoding alone.
* `next_refines_decode`: every decoder that calls can reach.
-/

namespace MessagePack.IncrementalDecoder

open Reading

/-- The bytes that wait. -/
def waiting (d : IncrementalDecoder) : Bytes := d.queue.toBytes

/-- The saved scan tells the truth about the queue. -/
def Good (d : IncrementalDecoder) : Prop := d.scan.Good d.maxDepth d.queue

variable {d : IncrementalDecoder}

theorem good_ofMaxDepth (maxDepth : Nat) : (ofMaxDepth maxDepth).Good := Scan.good_start _ _

theorem Good.push (h : d.Good) (chunk : Bytes) : (d.push chunk).Good := Scan.Good.push h chunk

theorem good_clear (d : IncrementalDecoder) : d.clear.Good := Scan.good_start _ _

theorem buffered_eq (d : IncrementalDecoder) : d.buffered = d.waiting.length := d.queue.size_eq

/-! ## One answer -/

/-- A scan without a result means that bytes are missing. -/
theorem resumeScan_false (h : d.Good) {scan : Scan} (hscan : d.resumeScan = (false, scan)) :
    (∃ o, decode d.maxDepth d.waiting = .error (.endOfBuffer o)) ∧
      scan.Good d.maxDepth d.queue := by
  obtain ⟨o, hscanned, hsaved⟩ := h
  unfold resumeScan at hscan
  have hresume : ∀ {c : Cursor}, c.At d.queue o →
      scanHeaders d.maxDepth (c.remaining + 1) c d.scan = (false, scan) →
      (∃ o, decode d.maxDepth d.waiting = .error (.endOfBuffer o)) ∧
        scan.Good d.maxDepth d.queue := by
    intro c hc hrun
    have hfollows : Follows d.queue c ⟨d.queue.toBytes.drop o, o⟩ := ⟨hc, rfl⟩
    refine scanHeaders_false hfollows hscanned hsaved ?_ hrun
    rw [hc.remaining_eq]
    exact Nat.lt_succ_self _
  cases hmark : d.scan.mark with
  | none =>
    rw [hmark] at hscan hsaved
    cases hsaved
    exact hresume (Cursor.at_cursor d.queue) hscan
  | some m =>
    rw [hmark] at hscan hsaved
    exact hresume (Cursor.at_cursorAt hsaved) hscan

/-- Reading from the queue is reading from the bytes that wait. -/
theorem run_cursor (d : IncrementalDecoder) :
    Agree (Follows d.queue) ((readAny d.maxDepth).run d.queue.cursor)
      ((readAny d.maxDepth).run (Slice.ofBytes d.waiting)) :=
  matches_readValue (simulates_follows d.queue) (d.maxDepth + 1) _ _ (follows_cursor d.queue)

theorem decode_nil (maxDepth : Nat) : decode maxDepth [] = .error (.endOfBuffer 0) := rfl

/-- When no bytes are missing, the decoder reads. -/
theorem resumeScan_true (h : d.Good)
    (hne : ∀ o, decode d.maxDepth d.waiting ≠ .error (.endOfBuffer o)) :
    d.queue.size ≠ 0 ∧ ∃ scan, d.resumeScan = (true, scan) := by
  constructor
  · intro hzero
    rw [d.queue.size_eq] at hzero
    have hnil : d.waiting = [] := List.eq_nil_of_length_eq_zero hzero
    exact hne 0 (by rw [hnil, decode_nil])
  · rcases hscan : d.resumeScan with ⟨_ | _, scan⟩
    · obtain ⟨⟨o, hmissing⟩, -⟩ := resumeScan_false h hscan
      exact absurd hmissing (hne o)
    · exact ⟨scan, rfl⟩

/-- A value at the beginning of the waiting bytes is given out, and its bytes are dropped. -/
theorem next_of_ok (h : d.Good) {v : Value} {n : Nat}
    (hv : decode d.maxDepth d.waiting = .ok (v, n)) :
    n ≤ d.waiting.length ∧ ∃ d', d.next = (.ok (some v), d') ∧ d'.Good ∧
      d'.maxDepth = d.maxDepth ∧ d'.waiting = d.waiting.drop n ∧ d'.consumed = d.consumed + n := by
  obtain ⟨hsize, scan, hscan⟩ := resumeScan_true h (by simp [hv])
  unfold decode at hv
  rcases (run_cursor d).cases with ⟨e, c, r, -, hslice, -⟩ | ⟨w, c, r, hcursor, hslice, hfollows⟩
  · rw [hslice] at hv
    cases hv
  · rw [hslice] at hv
    cases hv
    have hoffset := hfollows.1.offset_eq
    have hle : c.offset ≤ d.waiting.length := hoffset ▸ hfollows.1.offset_le
    have hskip := ByteQueue.skip_of_le hle
    have hbytes := d.queue.toBytes_discard c.offset
    refine ⟨hoffset ▸ hle, ?_⟩
    unfold next
    rw [if_neg hsize, hscan]
    simp only [hcursor, hskip]
    exact ⟨_, rfl, Scan.good_start _ _, rfl, hoffset ▸ hbytes, hoffset ▸ rfl⟩

/-- Nothing is given out while bytes are missing. -/
theorem next_of_endOfBuffer (h : d.Good) {o : Nat}
    (hmissing : decode d.maxDepth d.waiting = .error (.endOfBuffer o)) :
    ∃ scan, d.next = (.ok none, { d with scan := scan }) ∧ scan.Good d.maxDepth d.queue := by
  unfold next
  split
  · exact ⟨d.scan, rfl, h⟩
  · rcases hscan : d.resumeScan with ⟨_ | _, scan⟩
    case false => exact ⟨scan, rfl, (resumeScan_false h hscan).2⟩
    case true =>
      unfold decode at hmissing
      rcases (run_cursor d).cases with ⟨e, c, r, hcursor, hslice, -⟩ | ⟨w, c, r, -, hslice, -⟩
      · rw [hslice] at hmissing
        cases hmissing
        simp only [hcursor]
        exact ⟨.start, rfl, Scan.good_start _ _⟩
      · rw [hslice] at hmissing
        cases hmissing

/-- An error is reported, counted from the beginning of the stream. -/
theorem next_of_error (h : d.Good) {e : DecodeError}
    (he : decode d.maxDepth d.waiting = .error e) (hne : ∀ o, e ≠ .endOfBuffer o) :
    ∃ scan, d.next = (.error (e.shift d.consumed), { d with scan := scan }) ∧
      scan.Good d.maxDepth d.queue := by
  obtain ⟨hsize, scan, hscan⟩ := resumeScan_true h (by simp [he, hne])
  unfold decode at he
  rcases (run_cursor d).cases with ⟨e', c, r, hcursor, hslice, -⟩ | ⟨w, c, r, -, hslice, -⟩
  · rw [hslice] at he
    cases he
    refine ⟨.start, ?_, Scan.good_start _ _⟩
    unfold next
    rw [if_neg hsize, hscan]
    simp only [hcursor]
  · rw [hslice] at he
    cases he

/-- The answer where decoding fails: bytes may come yet, other errors stay. -/
def failure (d : IncrementalDecoder) : DecodeError → Except DecodeError (Option Value)
  | .endOfBuffer _ => .ok none
  | e => .error (e.shift d.consumed)

/-- Where decoding fails, only the scan changes. -/
theorem next_of_failure (h : d.Good) {e : DecodeError}
    (he : decode d.maxDepth d.waiting = .error e) :
    ∃ scan, d.next = (d.failure e, { d with scan := scan }) ∧ scan.Good d.maxDepth d.queue := by
  cases e with
  | endOfBuffer o => exact next_of_endOfBuffer h he
  | invalidByte b o => exact next_of_error h he nofun
  | depthExceeded o => exact next_of_error h he nofun

/-! ## Runs -/

/-- What can be done with a decoder. -/
inductive Call where
  | push (chunk : Bytes)
  | next
  | clear

/-- The decoder after a call. -/
def apply (d : IncrementalDecoder) : Call → IncrementalDecoder
  | .push chunk => d.push chunk
  | .next => d.next.2
  | .clear => d.clear

/-- The decoder after calls, one after the other. -/
def after (maxDepth : Nat) (calls : List Call) : IncrementalDecoder :=
  calls.foldl apply (ofMaxDepth maxDepth)

/-- How far the decoding of a stream has got: the bytes that wait, and the number of those that are
gone. -/
structure Progress where
  rest : Bytes
  consumed : Nat

/-- What a call comes to, told by decoding alone: a chunk waits behind the bytes that do, a value
that the waiting bytes begin with goes, and nothing else goes but what is dropped. -/
def Progress.call (maxDepth : Nat) (p : Progress) : Call → Progress
  | .push chunk => ⟨p.rest ++ chunk, p.consumed⟩
  | .next =>
    match decode maxDepth p.rest with
    | .ok (_, n) => ⟨p.rest.drop n, p.consumed + n⟩
    | .error _ => p
  | .clear => ⟨[], p.consumed + p.rest.length⟩

/-- What calls come to, one after the other. -/
def progress (maxDepth : Nat) (calls : List Call) : Progress :=
  calls.foldl (Progress.call maxDepth) ⟨[], 0⟩

/-- How far a decoder has got. -/
def point (d : IncrementalDecoder) : Progress := ⟨d.waiting, d.consumed⟩

/-- A call takes a decoder where decoding says. -/
theorem apply_spec (h : d.Good) (call : Call) :
    (d.apply call).Good ∧ (d.apply call).maxDepth = d.maxDepth ∧
      (d.apply call).point = d.point.call d.maxDepth call := by
  cases call with
  | push chunk =>
    refine ⟨h.push chunk, rfl, ?_⟩
    show Progress.mk (d.queue.push chunk).toBytes d.consumed = ⟨d.waiting ++ chunk, d.consumed⟩
    rw [ByteQueue.toBytes_push, waiting]
  | next =>
    rcases hdecode : decode d.maxDepth d.waiting with e | ⟨v, n⟩
    · obtain ⟨scan, hnext, hgood⟩ := next_of_failure h hdecode
      rw [apply, hnext]
      refine ⟨hgood, rfl, ?_⟩
      show d.point = d.point.call d.maxDepth .next
      simp only [Progress.call, point, hdecode]
    · obtain ⟨-, d', hnext, hgood, hmax, hwaiting, hconsumed⟩ := next_of_ok h hdecode
      rw [apply, hnext]
      exact ⟨hgood, hmax, by simp only [Progress.call, point, hdecode, hwaiting, hconsumed]⟩
  | clear =>
    refine ⟨good_clear d, rfl, ?_⟩
    show Progress.mk [] (d.consumed + d.queue.size) = ⟨[], d.consumed + d.waiting.length⟩
    rw [d.queue.size_eq, waiting]

theorem foldl_spec (h : d.Good) (calls : List Call) :
    (calls.foldl apply d).point = calls.foldl (Progress.call d.maxDepth) d.point := by
  induction calls generalizing d with
  | nil => rfl
  | cons call calls ih =>
    obtain ⟨hgood, hmax, hpoint⟩ := apply_spec h call
    rw [List.foldl_cons, List.foldl_cons, ih hgood, hmax, hpoint]

/-- Every decoder that calls can reach has got where the calls come to. -/
theorem point_after (maxDepth : Nat) (calls : List Call) :
    (after maxDepth calls).point = progress maxDepth calls :=
  foldl_spec (good_ofMaxDepth maxDepth) calls

/-! ## The bytes that came -/

/-- The bytes that a call brings. -/
def Call.bytes : Call → Bytes
  | push chunk => chunk
  | next => []
  | clear => []

/-- The bytes that calls bring. -/
def arrived (calls : List Call) : Bytes := calls.flatMap Call.bytes

/-- Of the bytes that came, those that are not gone wait. -/
structure Progress.Of (bs : Bytes) (p : Progress) : Prop where
  consumed_le : p.consumed ≤ bs.length
  rest_eq : p.rest = bs.drop p.consumed

theorem Progress.Of.call {bs : Bytes} {p : Progress} (h : p.Of bs) (maxDepth : Nat) (call : Call) :
    (p.call maxDepth call).Of (bs ++ call.bytes) := by
  have hle := h.consumed_le
  have hrest : p.rest.length = bs.length - p.consumed := by rw [h.rest_eq, List.length_drop]
  cases call with
  | push chunk =>
    refine ⟨?_, ?_⟩
    · show p.consumed ≤ (bs ++ chunk).length
      rw [List.length_append]
      omega
    · show p.rest ++ chunk = (bs ++ chunk).drop p.consumed
      rw [List.drop_append_of_le_length hle, h.rest_eq]
  | next =>
    rw [Call.bytes, List.append_nil, Progress.call]
    rcases hdecode : decode maxDepth p.rest with e | ⟨v, n⟩
    · exact h
    · obtain ⟨front, later, hsplit, rfl, -⟩ := reads_of_decode hdecode
      have hlength := congrArg List.length hsplit
      rw [List.length_append] at hlength
      refine ⟨?_, ?_⟩
      · show p.consumed + front.length ≤ bs.length
        omega
      · show p.rest.drop front.length = bs.drop (p.consumed + front.length)
        rw [h.rest_eq, List.drop_drop]
  | clear =>
    have hall : p.consumed + p.rest.length = bs.length := by omega
    rw [Call.bytes, List.append_nil, Progress.call, hall]
    exact ⟨Nat.le_refl _, (List.drop_length (l := bs)).symm⟩

/-- A good decoder to which some bytes have come: those that are not consumed wait. -/
structure Tracks (maxDepth : Nat) (bs : Bytes) (d : IncrementalDecoder) : Prop where
  good : d.Good
  maxDepth_eq : d.maxDepth = maxDepth
  consumed_le : d.consumed ≤ bs.length
  waiting_eq : d.waiting = bs.drop d.consumed

namespace Tracks

variable {maxDepth : Nat} {bs : Bytes}

theorem apply (h : Tracks maxDepth bs d) (call : Call) :
    Tracks maxDepth (bs ++ call.bytes) (d.apply call) := by
  obtain ⟨hgood, hmax, hpoint⟩ := apply_spec h.good call
  have hof : (d.apply call).point.Of (bs ++ call.bytes) :=
    hpoint ▸ Progress.Of.call ⟨h.consumed_le, h.waiting_eq⟩ d.maxDepth call
  exact ⟨hgood, hmax.trans h.maxDepth_eq, hof.consumed_le, hof.rest_eq⟩

theorem next (h : Tracks maxDepth bs d) : Tracks maxDepth bs d.next.2 := by
  have hnext : Tracks maxDepth (bs ++ []) d.next.2 := h.apply .next
  rwa [List.append_nil] at hnext

theorem foldl (h : Tracks maxDepth bs d) (calls : List Call) :
    Tracks maxDepth (bs ++ arrived calls) (calls.foldl IncrementalDecoder.apply d) := by
  induction calls generalizing bs d with
  | nil =>
    rw [arrived, List.flatMap_nil, List.append_nil]
    exact h
  | cons call calls ih =>
    rw [arrived, List.flatMap_cons, ← List.append_assoc]
    exact ih (h.apply call)

end Tracks

/-- Every decoder that calls can reach. -/
theorem tracks_after (maxDepth : Nat) (calls : List Call) :
    Tracks maxDepth (arrived calls) (after maxDepth calls) :=
  Tracks.foldl ⟨good_ofMaxDepth maxDepth, rfl, Nat.le_refl _, rfl⟩ calls

/-! ## Every answer of every decoder -/

/-- After an answer other than a value, the decoder is as before and answers the same again. -/
theorem next_next {e : DecodeError} (h : d.Good) (he : decode d.maxDepth d.waiting = .error e) :
    d.next.2.waiting = d.waiting ∧ d.next.2.buffered = d.buffered ∧
      d.next.2.consumed = d.consumed ∧ d.next.2.next.1 = d.next.1 := by
  obtain ⟨scan, hnext, hgood⟩ := next_of_failure h he
  obtain ⟨scan', hnext', -⟩ :=
    next_of_failure (d := { d with scan := scan }) hgood he
  rw [hnext, hnext']
  exact ⟨rfl, rfl, rfl, rfl⟩

/-- Incremental decoding refines decoding. In every decoder that calls can reach, those bytes wait
that have come since the last value was taken or the last byte dropped, and the next answer is that
of decoding them. -/
theorem next_refines_decode (maxDepth : Nat) (calls : List Call) :
    let d := after maxDepth calls
    let rest := (progress maxDepth calls).rest
    d.waiting = rest ∧ d.buffered = rest.length ∧ d.consumed = (progress maxDepth calls).consumed ∧
    d.consumed + d.buffered = (arrived calls).length ∧ rest = (arrived calls).drop d.consumed ∧
    (∀ chunk, (d.push chunk).waiting = rest ++ chunk ∧
      (d.push chunk).buffered = d.buffered + chunk.length ∧
      (d.push chunk).consumed = d.consumed) ∧
    (d.clear.waiting = [] ∧ d.clear.buffered = 0 ∧ d.clear.consumed = (arrived calls).length) ∧
    (∀ v n, decode maxDepth rest = .ok (v, n) →
      d.next.1 = .ok (some v) ∧ d.next.2.waiting = rest.drop n ∧
        d.next.2.buffered = d.buffered - n ∧ d.next.2.consumed = d.consumed + n) ∧
    (∀ o, rest = [] ∨ decode maxDepth rest = .error (.endOfBuffer o) → d.next.1 = .ok none) ∧
    (∀ e, decode maxDepth rest = .error e → (∀ o, e ≠ .endOfBuffer o) →
      d.next.1 = .error (e.shift d.consumed)) ∧
    (∀ e, decode maxDepth rest = .error e →
      d.next.2.waiting = rest ∧ d.next.2.buffered = d.buffered ∧
        d.next.2.consumed = d.consumed ∧ d.next.2.next.1 = d.next.1) := by
  intro d rest
  have h : Tracks maxDepth (arrived calls) d := tracks_after maxDepth calls
  have hpoint : d.point = progress maxDepth calls := point_after maxDepth calls
  have hrest : d.waiting = rest := congrArg Progress.rest hpoint
  have hbuffered : d.buffered = rest.length := by rw [buffered_eq, hrest]
  have hsum : d.consumed + d.buffered = (arrived calls).length := by
    have hle := h.consumed_le
    rw [buffered_eq, h.waiting_eq, List.length_drop]
    omega
  have hdecode : decode d.maxDepth d.waiting = decode maxDepth rest := by
    rw [hrest, h.maxDepth_eq]
  refine ⟨hrest, hbuffered, congrArg Progress.consumed hpoint, hsum, hrest.symm.trans h.waiting_eq,
    fun chunk => ?_, ⟨rfl, rfl, hsum⟩, fun v n hv => ?_, fun o ho => ?_, fun e he hne => ?_,
    fun e he => ?_⟩
  · have hpush : (d.push chunk).waiting = rest ++ chunk := by
      rw [← hrest]
      exact ByteQueue.toBytes_push d.queue chunk
    refine ⟨hpush, ?_, rfl⟩
    rw [buffered_eq, hpush, hbuffered, List.length_append]
  · obtain ⟨-, d', hnext, hgood, -, hwaiting, hconsumed⟩ := next_of_ok h.good (hdecode.trans hv)
    rw [hrest] at hwaiting
    rw [hnext]
    refine ⟨rfl, hwaiting, ?_, hconsumed⟩
    show d'.buffered = d.buffered - n
    rw [buffered_eq, hwaiting, List.length_drop, hbuffered]
  · have hmissing : ∃ o, decode maxDepth rest = .error (.endOfBuffer o) := by
      rcases ho with hnil | ho
      · exact ⟨0, by rw [hnil, decode_nil]⟩
      · exact ⟨o, ho⟩
    obtain ⟨o, ho⟩ := hmissing
    obtain ⟨scan, hnext, -⟩ := next_of_endOfBuffer h.good (hdecode.trans ho)
    rw [hnext]
  · obtain ⟨scan, hnext, -⟩ := next_of_error h.good (hdecode.trans he) hne
    rw [hnext]
  · rw [← hrest]
    exact next_next h.good (hdecode.trans he)

/-- A byte that is dropped, and then an array that arrives in two chunks, with an attempt in
between. -/
theorem next_refines_decode_chunks :
    let calls : List Call := [.push [0xc1], .clear, .push [0x92, 0x01], .next, .push [0x02, 0xc0]]
    (after 1 calls).next.1 = .ok (some (.array [.uint8 1, .uint8 2])) ∧
      (after 1 calls).next.2.consumed = 4 := by
  intro calls
  obtain ⟨-, -, hconsumed, -, -, -, -, hvalue, -⟩ := next_refines_decode 1 calls
  have hrest : (progress 1 calls).rest = [0x92, 0x01, 0x02, 0xc0] := rfl
  obtain ⟨hanswer, -, -, hnext⟩ := hvalue (.array [.uint8 1, .uint8 2]) 3 (hrest ▸ rfl)
  exact ⟨hanswer, hnext.trans (hconsumed ▸ rfl)⟩

end MessagePack.IncrementalDecoder
