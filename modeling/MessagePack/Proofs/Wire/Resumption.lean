import MessagePack.Proofs.Wire.Cursors
import MessagePack.Proofs.Wire.Schedule
import MessagePack.Proofs.Wire.Truncation

/-!
# Resuming scans

A scan that stops for lack of bytes goes on from the place that it has saved. What it comes to there
is what a scan of all the waiting bytes comes to from the front, however they are cut into chunks
and wherever it has stopped before. So it has a result just when decoding does, and a value is built
only when it can be given out.

* `IncrementalDecoder.Resumable`: the saved scan is at such a place, preserved by every call.
* `IncrementalDecoder.resumeScan_exact`: every decoder that calls can reach.
-/

namespace MessagePack

open Reading

variable {maxDepth o : Nat} {bs : Bytes} {due : List Nat}

/-! ## One turn -/

/-- What one turn of a scan comes to. -/
inductive Turn where
  /-- The scan ends where it is. -/
  | stops (answer : Bool)
  /-- The outermost value ends at the place. -/
  | completes (o : Nat)
  /-- The scan goes on from the place, with these children due. -/
  | goesOn (o : Nat) (due : List Nat)

/-- The answer with which a turn ends the scan. -/
def Turn.answer? : Turn → Option Bool
  | stops answer => some answer
  | completes _ => some true
  | goesOn .. => none

/-- The turn of a scan of a byte string that has come to the place `o`. -/
def turnAt (maxDepth : Nat) (bs : Bytes) (o : Nat) (due : List Nat) : Turn :=
  if maxDepth < due.length then .stops true
  else
    match readExtent.run (⟨bs.drop o, o⟩ : Slice) with
    | (.error (.endOfBuffer _), _) => .stops false
    | (.error _, _) => .stops true
    | (.ok extent, r) =>
      match Readable.skip extent.payload r with
      | (.error _, _) => .stops false
      | (.ok (), r) =>
        match openChildren extent.children due with
        | [] => .completes r.offset
        | due => .goesOn r.offset due

/-- All that a turn can come to, and why. -/
inductive TurnSpec (maxDepth : Nat) (bs : Bytes) (o : Nat) (due : List Nat) : Turn → Prop
  | tooDeep (hdue : maxDepth < due.length) : TurnSpec maxDepth bs o due (.stops true)
  | fails {e : DecodeError} {r : Slice} (hdue : due.length ≤ maxDepth)
    (hextent : readExtent ⟨bs.drop o, o⟩ = (.error e, r)) (hne : ∀ k, e ≠ .endOfBuffer k) :
    TurnSpec maxDepth bs o due (.stops true)
  | shortExtent {k : Nat} {r : Slice} (hdue : due.length ≤ maxDepth)
    (hextent : readExtent ⟨bs.drop o, o⟩ = (.error (.endOfBuffer k), r)) :
    TurnSpec maxDepth bs o due (.stops false)
  | shortPayload {extent : Extent} {e : ShortRead} {r r' : Slice} (hdue : due.length ≤ maxDepth)
    (hextent : readExtent ⟨bs.drop o, o⟩ = (.ok extent, r))
    (hskip : Readable.skip extent.payload r = (.error e, r')) :
    TurnSpec maxDepth bs o due (.stops false)
  | completes {extent : Extent} {r r' : Slice} (hdue : due.length ≤ maxDepth)
    (hextent : readExtent ⟨bs.drop o, o⟩ = (.ok extent, r))
    (hskip : Readable.skip extent.payload r = (.ok (), r'))
    (hopen : openChildren extent.children due = []) :
    TurnSpec maxDepth bs o due (.completes r'.offset)
  | goesOn {extent : Extent} {r r' : Slice} (hdue : due.length ≤ maxDepth)
    (hextent : readExtent ⟨bs.drop o, o⟩ = (.ok extent, r))
    (hskip : Readable.skip extent.payload r = (.ok (), r'))
    (hopen : openChildren extent.children due ≠ []) :
    TurnSpec maxDepth bs o due (.goesOn r'.offset (openChildren extent.children due))

theorem turnAt_spec (maxDepth : Nat) (bs : Bytes) (o : Nat) (due : List Nat) :
    TurnSpec maxDepth bs o due (turnAt maxDepth bs o due) := by
  unfold turnAt
  split
  case isTrue hdue => exact .tooDeep hdue
  case isFalse hdue =>
    replace hdue := Nat.le_of_not_lt hdue
    split
    case h_1 hextent => exact .shortExtent hdue hextent
    case h_2 hne hextent => exact .fails hdue hextent fun k hk => hne k (hk ▸ rfl)
    case h_3 hextent =>
      split
      case h_1 hskip => exact .shortPayload hdue hextent hskip
      case h_2 hskip =>
        split
        case h_1 hopen => exact .completes hdue hextent hskip hopen
        case h_2 hopen => exact .goesOn hdue hextent hskip hopen

/-- A header and its payload take a byte at least, and no more than are there. -/
theorem offset_of_extent {extent : Extent} {r r' : Slice}
    (hextent : readExtent ⟨bs.drop o, o⟩ = (.ok extent, r))
    (hskip : Readable.skip extent.payload r = (.ok (), r')) :
    o < r'.offset ∧ r'.offset ≤ bs.length := by
  have hlt : o < r.offset := offset_lt_of_readExtent hextent
  obtain ⟨header, hheader, hr, -⟩ := local_readExtent.offset_eq hextent
  obtain ⟨payload, hpayload, hr', -⟩ := (local_skip _).offset_eq (ofRead_ok hskip)
  have hlength : bs.length - o = header.length + (payload.length + r'.rest.length) := by
    rw [← List.length_drop, ← List.length_append, ← hpayload, ← List.length_append, ← hheader]
  have hoffset : r.offset = o + header.length := hr
  omega

theorem turnAt_append {o' : Nat} {due' : List Nat} (h : turnAt maxDepth bs o due = .goesOn o' due')
    (more : Bytes) : turnAt maxDepth (bs ++ more) o due = .goesOn o' due' := by
  cases h ▸ turnAt_spec maxDepth bs o due with
  | goesOn hdue hextent hskip hopen =>
    have hoffset := offset_of_extent hextent hskip
    have hextent' := local_readExtent.append hextent more
    have hskip' := of_ofRead_ok ((local_skip _).append (ofRead_ok hskip) more)
    rw [← List.drop_append_of_le_length (by omega)] at hextent'
    simp only [turnAt, if_neg (Nat.not_lt.2 hdue), run, hextent', hskip']

theorem TurnSpec.offset {o' : Nat} {due' : List Nat}
    (h : TurnSpec maxDepth bs o due (.goesOn o' due')) : o < o' ∧ o' ≤ bs.length := by
  cases h with
  | goesOn _ hextent hskip => exact offset_of_extent hextent hskip

/-- The end of a scan of a byte string from a place on: its answer, and where it stays. -/
def scanStop (maxDepth : Nat) (bs : Bytes) (o : Nat) (due : List Nat) : Bool × Nat × List Nat :=
  match _ : turnAt maxDepth bs o due with
  | .stops answer => (answer, o, due)
  | .completes o' => (true, o', [])
  | .goesOn o' due' => scanStop maxDepth bs o' due'
termination_by bs.length - o
decreasing_by
  rename_i hturn
  have hoffset := (hturn ▸ turnAt_spec maxDepth bs o due).offset
  omega

theorem scanStop_of_goesOn {o' : Nat} {due' : List Nat}
    (h : turnAt maxDepth bs o due = .goesOn o' due') :
    scanStop maxDepth bs o due = scanStop maxDepth bs o' due' := by
  rw [scanStop]
  split <;> simp_all

/-! ## The places of a scan -/

/-- A scan from the front of a byte string comes to the place, with these children due. -/
inductive ScansTo (maxDepth : Nat) (bs : Bytes) : Nat → List Nat → Prop
  | front : ScansTo maxDepth bs 0 []
  | turn {o o' : Nat} {due due' : List Nat} (h : ScansTo maxDepth bs o due)
    (hturn : turnAt maxDepth bs o due = .goesOn o' due') : ScansTo maxDepth bs o' due'

/-- Counting off a child leaves positive counts. -/
theorem pos_of_mem_closeChild {n : Nat} (hdue : ∀ m ∈ due, 0 < m) (h : n ∈ closeChild due) :
    0 < n := by
  induction due with
  | nil => cases h
  | cons m due ih =>
    obtain ⟨-, hdue⟩ := List.forall_mem_cons.1 hdue
    unfold closeChild at h
    split at h
    case isTrue => exact ih hdue h
    case isFalse hm =>
      rcases List.mem_cons.1 h with rfl | h
      · omega
      · exact hdue n h

theorem pos_of_mem_openChildren {n children : Nat} (hdue : ∀ m ∈ due, 0 < m)
    (h : n ∈ openChildren children due) : 0 < n := by
  unfold openChildren at h
  split at h
  case isTrue hchildren =>
    rcases List.mem_cons.1 h with rfl | h
    · exact hchildren
    · exact hdue n h
  case isFalse => exact pos_of_mem_closeChild hdue h

/-- Nothing is left to open or close. -/
theorem openChildren_eq_nil {children : Nat} (h : openChildren children due = []) :
    children = 0 ∧ closeChild due = [] := by
  unfold openChildren at h
  split at h
  case isTrue => cases h
  case isFalse hchildren => exact ⟨Nat.eq_zero_of_not_pos hchildren, h⟩

theorem finish_of_closeChild (h : closeChild due = []) : finish maxDepth due = pure () := by
  induction due with
  | nil => rfl
  | cons n due ih =>
    unfold closeChild at h
    split at h
    case isTrue hn =>
      rw [finish, Nat.sub_eq_zero_of_le hn, skipItems_zero, pure_bind]
      exact ih h
    case isFalse => cases h

theorem runsOut_iff_skipAny : RunsOut maxDepth bs ↔
    ∃ k, (skipAny maxDepth (Slice.ofBytes bs)).1 = .error (.endOfBuffer k) := by
  have hrun := skipAny_apply maxDepth (Slice.ofBytes bs)
  rw [Reading.run] at hrun
  rw [hrun]
  unfold RunsOut decode
  rcases (readAny maxDepth).run (Slice.ofBytes bs) with ⟨_ | _, _⟩ <;> simp [Except.map]

namespace ScansTo

theorem scanned (h : ScansTo maxDepth bs o due) : Scanned maxDepth bs o due := by
  induction h with
  | front => exact .start maxDepth bs
  | @turn o o' due due' _ hturn ih =>
    cases hturn ▸ turnAt_spec maxDepth bs o due with
    | goesOn hdue hextent hskip hopen => exact ih.step hdue hextent (ofRead_ok hskip) hopen

/-- Every count of children due is positive, so none is counted down below zero. -/
theorem due_pos (h : ScansTo maxDepth bs o due) : ∀ n ∈ due, 0 < n := by
  induction h with
  | front => exact List.forall_mem_nil _
  | @turn o o' due due' _ hturn ih =>
    cases hturn ▸ turnAt_spec maxDepth bs o due with
    | goesOn => exact fun n => pos_of_mem_openChildren ih

/-- Bytes that come do not change which places are passed. -/
theorem append (h : ScansTo maxDepth bs o due) (more : Bytes) :
    ScansTo maxDepth (bs ++ more) o due := by
  induction h with
  | front => exact .front
  | @turn o o' due due' h hturn ih =>
    exact .turn ih (turnAt_append hturn more)

theorem scanStop_eq (h : ScansTo maxDepth bs o due) :
    scanStop maxDepth bs o due = scanStop maxDepth bs 0 [] := by
  induction h with
  | front => rfl
  | @turn o o' due due' _ hturn ih =>
    rw [← ih, scanStop_of_goesOn hturn]

end ScansTo

/-- Whether bytes are missing is settled where a scan ends. -/
theorem Scanned.runsOut_iff (h : Scanned maxDepth bs o due) {answer : Bool}
    (hanswer : (turnAt maxDepth bs o due).answer? = some answer) :
    RunsOut maxDepth bs ↔ answer = false := by
  rw [runsOut_iff_skipAny, h.skip_eq_self]
  have hspec := turnAt_spec maxDepth bs o due
  generalize turnAt maxDepth bs o due = turn at hspec hanswer
  cases hspec with
  | tooDeep hdue =>
    cases hanswer
    rw [pending, show maxDepth + 1 - due.length = 0 by omega]
    simp [bind_def, skipValue, tooDeep]
  | fails hdue hextent hne =>
    cases hanswer
    rw [pending_eq hdue, bind_error hextent]
    simpa using hne
  | shortExtent hdue hextent =>
    cases hanswer
    rw [pending_eq hdue, bind_error hextent]
    simp
  | shortPayload hdue hextent hskip =>
    cases hanswer
    rw [pending_eq hdue, bind_ok hextent, bind_error (ofRead_error hskip)]
    simp
  | @completes extent r r' hdue hextent hskip hopen =>
    cases hanswer
    obtain ⟨hchildren, hclose⟩ := openChildren_eq_nil hopen
    rw [pending_eq hdue, bind_ok hextent, bind_ok (ofRead_ok hskip), hchildren, skipItems_zero,
      pure_bind, finish_of_closeChild hclose]
    simp [pure_def]
  | goesOn => cases hanswer

/-- Where a scan ends with an answer, decoding has come to a result or not. -/
theorem ScansTo.scanStop_spec (h : ScansTo maxDepth bs o due) {answer : Bool} {o' : Nat}
    {due' : List Nat} (hstop : scanStop maxDepth bs o due = (answer, o', due')) :
    (RunsOut maxDepth bs ↔ answer = false) ∧ (answer = false → ScansTo maxDepth bs o' due' ∧
      due'.length ≤ maxDepth) := by
  fun_induction scanStop maxDepth bs o due with
  | case1 o due answer hturn =>
    cases hstop
    refine ⟨h.scanned.runsOut_iff (by rw [hturn]; rfl), ?_⟩
    rintro rfl
    refine ⟨h, ?_⟩
    cases hturn ▸ turnAt_spec maxDepth bs o' due' with
    | shortExtent hdue | shortPayload hdue => exact hdue
  | case2 o due o' hturn =>
    cases hstop
    exact ⟨h.scanned.runsOut_iff (by rw [hturn]; rfl), nofun⟩
  | case3 o due o' due' hturn ih => exact ih (h.turn hturn) hstop

/-! ## Scans over a queue -/

/-- The cursor `o` bytes behind the front of a queue. -/
def ByteQueue.cursorOn (q : ByteQueue) (o : Nat) : Cursor := (q.cursor.skip o).2

/-- What a scan saves of the place `o`; nothing is saved at the front. -/
def ByteQueue.markOn (q : ByteQueue) (o : Nat) : Option Mark :=
  if o = 0 then none else some (q.cursorOn o).mark

/-- The scan that has come to the place `o` of a queue. -/
def Scan.on (q : ByteQueue) (o : Nat) (due : List Nat) : Scan := ⟨q.markOn o, due⟩

/-- The end of a scan over a queue, by the place that it comes to. -/
def ByteQueue.scanEnd (q : ByteQueue) (stop : Bool × Nat × List Nat) : Bool × Scan :=
  (stop.1, .on q stop.2.1 stop.2.2)

section

variable {q : ByteQueue}

theorem Cursor.At.eq_cursorOn {c : Cursor} (h : c.At q o) : q.cursorOn o = c := by
  rw [ByteQueue.cursorOn, h.skip_eq]

theorem at_cursorOn (ho : o ≤ q.toBytes.length) : (q.cursorOn o).At q o := by
  obtain ⟨c, hskip, hat⟩ := Cursor.skip_of_le (Cursor.at_cursor q) (n := o) ho
  rw [Nat.zero_add] at hat
  rw [ByteQueue.cursorOn, hskip]
  exact hat

/-- The cursor at a saved place is the one as far from the front. -/
theorem cursorAt_mark_cursorOn (ho : o ≤ q.toBytes.length) (chunk : Bytes) :
    (q.push chunk).cursorAt (q.cursorOn o).mark = (q.push chunk).cursorOn o := by
  have hmark : (q.cursorOn o).mark.At (q.push chunk) o := (at_cursorOn ho).mark.push chunk
  exact (Cursor.at_cursorAt hmark).eq_cursorOn.symm

/-- What is saved stays the same when chunks come. -/
theorem Scan.on_push (ho : o ≤ q.toBytes.length) (chunk : Bytes) :
    Scan.on (q.push chunk) o due = Scan.on q o due := by
  unfold Scan.on ByteQueue.markOn
  rw [← cursorAt_mark_cursorOn ho]
  rfl

/-- One turn of a scan over a queue is the turn over its bytes. -/
theorem scanHeaders_succ (ho : o ≤ q.toBytes.length) (turns : Nat) :
    scanHeaders maxDepth (turns + 1) (q.cursorOn o) (.on q o due) =
      match turnAt maxDepth q.toBytes o due with
      | .stops answer => (answer, .on q o due)
      | .completes o' => (true, .on q o' [])
      | .goesOn o' due' => scanHeaders maxDepth turns (q.cursorOn o') (.on q o' due') := by
  have hhere : Follows q (q.cursorOn o) ⟨q.toBytes.drop o, o⟩ := (at_cursorOn ho).follows
  rw [scanHeaders, turnAt, Scan.on]
  by_cases hdue : maxDepth < due.length
  · simp only [hdue, if_true]
  · simp only [hdue, if_false]
    rcases (matches_readExtent (simulates_follows q) _ _ hhere).cases with
      ⟨e, c, r, hcursor, hslice, -⟩ | ⟨extent, c, r, hcursor, hslice, hread⟩
    · rw [run, run, hcursor, hslice]
      cases e <;> rfl
    · rw [run, run, hcursor, hslice]
      rcases (agree_skip extent.payload hread).cases with
        ⟨e, c', r', hcskip, hskip, -⟩ | ⟨_, c', r', hcskip, hskip, hskipped⟩
      · replace hskip : Readable.skip extent.payload r = (.error e, r') := hskip
        simp only [hcskip, hskip]
      · replace hskip : Readable.skip extent.payload r = (.ok (), r') := hskip
        have hpos : o < r'.offset := (offset_of_extent hslice hskip).1
        have hcursorOn : q.cursorOn r'.offset = c' := hskipped.1.eq_cursorOn
        have hmarkOn : q.markOn r'.offset = some c'.mark := by
          rw [ByteQueue.markOn, if_neg (by omega), hcursorOn]
        simp only [hcskip, hskip]
        cases hopen : openChildren extent.children due with
        | nil => simp only [Scan.on, hmarkOn]
        | cons n due' => simp only [Scan.on, hmarkOn, hcursorOn]

/-- A scan over a queue comes to what the bytes say, however they are cut. -/
theorem scanHeaders_eq (ho : o ≤ q.toBytes.length) {turns : Nat}
    (hturns : q.toBytes.length - o < turns) :
    scanHeaders maxDepth turns (q.cursorOn o) (.on q o due) =
      q.scanEnd (scanStop maxDepth q.toBytes o due) := by
  induction turns generalizing o due with
  | zero => cases hturns
  | succ turns ih =>
    rw [scanHeaders_succ ho, scanStop]
    cases hturn : turnAt maxDepth q.toBytes o due with
    | stops answer => rfl
    | completes o' => rfl
    | goesOn o' due' =>
      have hoffset := (hturn ▸ turnAt_spec maxDepth q.toBytes o due).offset
      exact ih hoffset.2 (by omega)

end

namespace IncrementalDecoder

variable {d : IncrementalDecoder}

/-! ## Decoders -/

/-- The saved scan has come to a place to which a scan from the front comes. -/
def Resumable (d : IncrementalDecoder) : Prop :=
  ∃ o due, ScansTo d.maxDepth d.waiting o due ∧ d.scan = .on d.queue o due

theorem resumable_start (maxDepth consumed : Nat) (q : ByteQueue) :
    Resumable ⟨maxDepth, q, consumed, .start⟩ := ⟨0, [], .front, rfl⟩

namespace Resumable

theorem good (h : d.Resumable) : d.Good := by
  obtain ⟨o, due, hscans, hscan⟩ := h
  refine ⟨o, ?_, ?_⟩
  · rw [hscan]
    exact hscans.scanned
  · rw [hscan, Scan.on, ByteQueue.markOn]
    split
    case isTrue hzero => exact hzero
    case isFalse => exact (at_cursorOn hscans.scanned.offset_le).mark

theorem push (h : d.Resumable) (chunk : Bytes) : (d.push chunk).Resumable := by
  obtain ⟨o, due, hscans, hscan⟩ := h
  refine ⟨o, due, ?_, ?_⟩
  · show ScansTo d.maxDepth (d.queue.push chunk).toBytes o due
    rw [ByteQueue.toBytes_push]
    exact hscans.append chunk
  · exact hscan.trans (Scan.on_push hscans.scanned.offset_le chunk).symm

/-- A resumed scan comes to what a scan of all the bytes that wait comes to. -/
theorem resumeScan_eq (h : d.Resumable) :
    d.resumeScan = d.queue.scanEnd (scanStop d.maxDepth d.waiting 0 []) := by
  obtain ⟨o, due, hscans, hscan⟩ := h
  have hle : o ≤ d.queue.toBytes.length := hscans.scanned.offset_le
  have hat : (d.queue.cursorOn o).At d.queue o := at_cursorOn hle
  have hturns : d.queue.toBytes.length - o < (d.queue.cursorOn o).remaining + 1 := by
    rw [hat.remaining_eq, List.length_drop]
    exact Nat.lt_succ_self _
  have hmark : d.scan.mark = d.queue.markOn o := by rw [hscan, Scan.on]
  rw [← hscans.scanStop_eq, waiting, ← scanHeaders_eq hle hturns, ← hscan, resumeScan]
  by_cases hzero : o = 0
  · have hfront : d.queue.cursorOn o = d.queue.cursor :=
      hzero ▸ (Cursor.at_cursor d.queue).eq_cursorOn
    rw [ByteQueue.markOn, if_pos hzero] at hmark
    simp only [hmark, hfront]
  · rw [ByteQueue.markOn, if_neg hzero] at hmark
    simp only [hmark, hat.cursorAt_eq]

theorem runsOut_iff (h : d.Resumable) :
    RunsOut d.maxDepth d.waiting ↔ d.resumeScan.1 = false := by
  rw [h.resumeScan_eq]
  exact (ScansTo.front.scanStop_spec rfl).1

/-- A scan that comes to no result stays at a place to which a scan from the front comes. -/
theorem of_resumeScan_false (h : d.Resumable) {scan : Scan} (hscan : d.resumeScan = (false, scan)) :
    Resumable { d with scan := scan } ∧ (∀ n ∈ scan.due, 0 < n) ∧ scan.due.length ≤ d.maxDepth := by
  rw [h.resumeScan_eq] at hscan
  obtain ⟨hanswer, rfl⟩ := Prod.mk.inj hscan
  obtain ⟨hscans, hdepth⟩ := (ScansTo.front.scanStop_spec rfl).2 hanswer
  exact ⟨⟨_, _, hscans, rfl⟩, hscans.due_pos, hdepth⟩

theorem next (h : d.Resumable) : d.next.2.Resumable := by
  unfold IncrementalDecoder.next
  split
  case isTrue => exact h
  case isFalse =>
    split
    case h_1 scan hscan => exact (h.of_resumeScan_false hscan).1
    case h_2 =>
      -- The scan begins anew, at the front of a queue that may have lost a value.
      simp only
      split
      case h_1 => split <;> exact resumable_start _ _ _
      case h_2 => exact resumable_start _ _ _
      case h_3 => exact resumable_start _ _ _

theorem apply (h : d.Resumable) (call : Call) : (d.apply call).Resumable := by
  cases call with
  | push chunk => exact h.push chunk
  | next => exact h.next
  | clear => exact resumable_start _ _ _

theorem foldl (h : d.Resumable) (calls : List Call) :
    (calls.foldl IncrementalDecoder.apply d).Resumable := by
  induction calls generalizing d with
  | nil => exact h
  | cons call calls ih => exact ih (h.apply call)

end Resumable

theorem resumable_after (maxDepth : Nat) (calls : List Call) : (after maxDepth calls).Resumable :=
  (resumable_start maxDepth 0 .empty).foldl calls

/-! ## How often values are built -/

/-- The number of times that a call begins to build a value. -/
def buildsIn (d : IncrementalDecoder) : Call → Nat
  | .next => if d.queue.size ≠ 0 ∧ d.resumeScan.1 then 1 else 0
  | .push _ | .clear => 0

/-- The number of times that calls begin to build a value, one after the other. -/
def buildsFrom (d : IncrementalDecoder) : List Call → Nat
  | [] => 0
  | call :: calls => d.buildsIn call + buildsFrom (d.apply call) calls

/-- The number of times that a run begins to build a value. -/
def builds (maxDepth : Nat) (calls : List Call) : Nat := buildsFrom (ofMaxDepth maxDepth) calls

/-- The answer is a value or an error. -/
def Answer.isResult : Answer → Bool
  | .ok none => false
  | _ => true

/-- A call builds a value only if it answers with one, or with the error that this comes to. -/
theorem Resumable.buildsIn_eq (h : d.Resumable) (call : Call) :
    d.buildsIn call = (d.answersTo call).countP Answer.isResult := by
  cases call with
  | push chunk => rfl
  | clear => rfl
  | next =>
    rw [buildsIn, answersTo, List.countP_singleton]
    by_cases hshort : RunsOut d.maxDepth d.waiting
    · obtain ⟨o, ho⟩ := hshort
      obtain ⟨scan, hnext, -⟩ := next_of_endOfBuffer h.good ho
      rw [hnext, h.runsOut_iff.1 ⟨o, ho⟩]
      simp [Answer.isResult]
    · obtain ⟨hsize, scan, hscan⟩ := resumeScan_true h.good fun o ho => hshort ⟨o, ho⟩
      have hresult : Answer.isResult d.next.1 := by
        rcases hdecode : decode d.maxDepth d.waiting with e | ⟨v, n⟩
        · obtain ⟨scan, hnext, -⟩ := next_of_failure h.good hdecode
          rw [hnext]
          cases e with
          | endOfBuffer o => exact absurd ⟨o, hdecode⟩ hshort
          | invalidByte b o | depthExceeded o => rfl
        · obtain ⟨-, d', hnext, -⟩ := next_of_ok h.good hdecode
          rw [hnext]
          rfl
      simp [hsize, hscan, hresult]

theorem Resumable.buildsFrom_eq (h : d.Resumable) (calls : List Call) :
    buildsFrom d calls = (answersFrom d calls).countP Answer.isResult := by
  induction calls generalizing d with
  | nil => rfl
  | cons call calls ih =>
    rw [buildsFrom, answersFrom, List.countP_append, h.buildsIn_eq, ih (h.apply call)]

/-- After a scan with a result, building a value does not run out of bytes. -/
theorem Resumable.run_cursor_ne (h : d.Resumable) (hscan : d.resumeScan.1 = true) (o : Nat) :
    ((readAny d.maxDepth).run d.queue.cursor).1 ≠ .error (.endOfBuffer o) := by
  intro hshort
  have hslice : ((readAny d.maxDepth).run (Slice.ofBytes d.waiting)).1 = .error (.endOfBuffer o) :=
    (run_cursor d).1.symm.trans hshort
  have hfalse := h.runsOut_iff.1 ⟨o, decode_of_error hslice⟩
  rw [hscan] at hfalse
  cases hfalse

/-- What a scan without a result comes to is saved. -/
theorem scan_next_of_false {scan : Scan} (hsize : d.queue.size ≠ 0)
    (hscan : d.resumeScan = (false, scan)) : d.next.2.scan = scan := by
  rw [next, if_neg hsize, hscan]

/-- The scan of every decoder that calls can reach is exact. It has a result just when decoding the
waiting bytes does, so building a value after it never runs out of bytes, and in a run a value is
built just as often as an attempt answers with a value or an error. It comes to the same as a scan
that begins anew at the front; if that is no result, what is saved are positive counts of due
children, at most as many as the bound on nesting, and so it is at every place on the way. -/
theorem resumeScan_exact (maxDepth : Nat) (calls : List Call) :
    let d := after maxDepth calls
    let rest := (arrived calls).drop d.consumed
    (d.resumeScan.1 = true ↔ ∀ o, decode maxDepth rest ≠ .error (.endOfBuffer o)) ∧
    (d.resumeScan.1 = true →
      ∀ o, ((readAny maxDepth).run d.queue.cursor).1 ≠ .error (.endOfBuffer o)) ∧
    builds maxDepth calls = (answers maxDepth calls).countP Answer.isResult ∧
    d.resumeScan = resumeScan { d with scan := .start } ∧
    (∀ scan, d.resumeScan = (false, scan) → (rest ≠ [] → d.next.2.scan = scan) ∧
      (∀ n ∈ scan.due, 1 ≤ n) ∧ scan.due.length ≤ maxDepth) ∧
    (∃ o due, ScansTo maxDepth rest o due ∧ d.scan = .on d.queue o due) ∧
    (∀ o due, ScansTo maxDepth rest o due → ∀ n ∈ due, 1 ≤ n) := by
  intro d rest
  have htracks : Tracks maxDepth (arrived calls) d := tracks_after maxDepth calls
  have hmax : d.maxDepth = maxDepth := htracks.maxDepth_eq
  have hrest : d.waiting = rest := htracks.waiting_eq
  have h : d.Resumable := resumable_after maxDepth calls
  have hshort : RunsOut maxDepth rest ↔ d.resumeScan.1 = false := by
    rw [← hmax, ← hrest]
    exact h.runsOut_iff
  refine ⟨?_, fun hscan => hmax ▸ h.run_cursor_ne hscan,
    (resumable_start maxDepth 0 .empty).buildsFrom_eq calls, ?_,
    fun scan hscan => ?_, ?_, fun _ _ hscans => hscans.due_pos⟩
  · rw [← Bool.not_eq_false, ← hshort, RunsOut, not_exists]
  · rw [h.resumeScan_eq, (resumable_start d.maxDepth d.consumed d.queue).resumeScan_eq]
    rfl
  · obtain ⟨-, hpos, hdepth⟩ := h.of_resumeScan_false hscan
    refine ⟨fun hne => scan_next_of_false (fun hzero => hne ?_) hscan, hpos, hmax ▸ hdepth⟩
    have hlength : d.waiting.length = 0 := d.queue.size_eq.symm.trans hzero
    rw [← hrest, List.eq_nil_of_length_eq_zero hlength]
  · rw [← hmax, ← hrest]
    exact h

/-- An array whose second item comes in a chunk of its own, but not whole: the scan goes on after
the first item, and stops where it was. -/
theorem resumeScan_exact_chunks :
    let d := after 1 [.push [0x92, 0x01], .next, .push [0xa2, 0x68]]
    d.scan = ⟨some ⟨1, 0, 2⟩, [1]⟩ ∧ d.resumeScan = (false, d.scan) ∧ d.next.2.scan = d.scan ∧
      resumeScan { d with scan := .start } = (false, ⟨some ⟨1, 0, 2⟩, [1]⟩) ∧
      ∃ o, decode 1 [0x92, 0x01, 0xa2, 0x68] = .error (.endOfBuffer o) := by
  intro d
  obtain ⟨hexact, -, -, hfresh, hsaved, -⟩ :=
    resumeScan_exact 1 [.push [0x92, 0x01], .next, .push [0xa2, 0x68]]
  have hscan : d.resumeScan = (false, d.scan) := rfl
  refine ⟨rfl, hscan, (hsaved _ hscan).1 nofun, hfresh.symm.trans hscan, ?_⟩
  refine Classical.byContradiction fun hnone => ?_
  cases hexact.2 (not_exists.1 hnone)

end IncrementalDecoder

end MessagePack
