import MessagePack.Proofs.Wire.Reading
import MessagePack.Proofs.Wire.Simulation
import MessagePack.Proofs.Wire.Skipping
import MessagePack.Wire.Incremental

/-!
# Scanning headers

A scan that stops has got to a place, with children due in the arrays and objects that are open
there. From then on, passing over the value from the front is passing over what is due from that
place, whatever is still to come. So when the scan finds that bytes are missing, they are
missing for the whole value.

* `Scanned`: what a scan has found out.
* `scanHeaders_false`: a scan that comes to no result.
-/

namespace MessagePack

open Reading

variable {maxDepth : Nat}

/-! ## What is due -/

/-- Passes over what is due after a child of the innermost array or object: its siblings, and then
what is due after the array or object itself. -/
def finish (maxDepth : Nat) : List Nat → Reading Slice Unit
  | [] => pure ()
  | n :: due =>
    skipItems (skipValue (maxDepth - due.length)) (n - 1) >>= fun _ => finish maxDepth due

/-- Passes over all that is due, the next child first. -/
def pending (maxDepth : Nat) (due : List Nat) : Reading Slice Unit :=
  skipValue (maxDepth + 1 - due.length) >>= fun _ => finish maxDepth due

theorem pending_nil : pending maxDepth [] = skipAny maxDepth := bind_pure_unit

theorem pending_cons (n : Nat) (due : List Nat) (hn : 0 < n) :
    pending maxDepth (n :: due) =
      skipItems (skipValue (maxDepth - due.length)) n >>= fun _ => finish maxDepth due := by
  obtain ⟨n, rfl⟩ := Nat.exists_eq_succ_of_ne_zero (Nat.ne_of_gt hn)
  rw [skipItems_succ, bind_assoc, pending, List.length_cons, Nat.add_sub_add_right]
  rfl

/-- Counting off a child passes over nothing. -/
theorem finish_eq_pending {due : List Nat} (h : closeChild due ≠ []) :
    finish maxDepth due = pending maxDepth (closeChild due) := by
  induction due with
  | nil => exact absurd rfl h
  | cons n due ih =>
    unfold closeChild at h ⊢
    split
    case isTrue hn =>
      rw [if_pos hn] at h
      rw [finish, Nat.sub_eq_zero_of_le hn, skipItems_zero, pure_bind]
      exact ih h
    case isFalse hn =>
      rw [pending_cons _ _ (by omega), finish]

/-- Opening an array or object makes its children due. -/
theorem skipItems_eq_pending {n : Nat} {due : List Nat} (h : openChildren n due ≠ []) :
    (skipItems (skipValue (maxDepth - due.length)) n >>= fun _ => finish maxDepth due) =
      pending maxDepth (openChildren n due) := by
  unfold openChildren at h ⊢
  split
  case isTrue hn => exact (pending_cons n due hn).symm
  case isFalse hn =>
    rw [if_neg hn] at h
    rw [Nat.eq_zero_of_not_pos hn, skipItems_zero, pure_bind]
    exact finish_eq_pending h

/-- The next value that is due: its extent, its payload, and its children. -/
theorem pending_eq {due : List Nat} (h : due.length ≤ maxDepth) :
    pending maxDepth due =
      readExtent >>= fun extent => ofRead (Readable.skip extent.payload) >>= fun _ =>
        skipItems (skipValue (maxDepth - due.length)) extent.children >>= fun _ =>
          finish maxDepth due := by
  rw [pending, show maxDepth + 1 - due.length = maxDepth - due.length + 1 by omega, skipValue]
  simp only [bind_assoc]

/-! ## What a scan has found out -/

/-- The headers up to the place `o` have been passed, and these children are due. -/
structure Scanned (maxDepth : Nat) (bs : Bytes) (o : Nat) (due : List Nat) : Prop where
  offset_le : o ≤ bs.length
  skip_eq : ∀ more, skipAny maxDepth (Slice.ofBytes (bs ++ more)) =
    pending maxDepth due ⟨(bs ++ more).drop o, o⟩

namespace Scanned

variable {bs : Bytes} {o : Nat} {due : List Nat}

theorem start (maxDepth : Nat) (bs : Bytes) : Scanned maxDepth bs 0 [] := by
  refine ⟨Nat.zero_le _, fun more => ?_⟩
  rw [pending_nil]
  rfl

/-- What was found out stays true when bytes come. -/
theorem append (h : Scanned maxDepth bs o due) (more : Bytes) :
    Scanned maxDepth (bs ++ more) o due := by
  refine ⟨?_, fun more' => ?_⟩
  · rw [List.length_append]
    exact Nat.le_trans h.offset_le (Nat.le_add_right _ _)
  · rw [List.append_assoc]
    exact h.skip_eq (more ++ more')

theorem skip_eq_self (h : Scanned maxDepth bs o due) :
    skipAny maxDepth (Slice.ofBytes bs) = pending maxDepth due ⟨bs.drop o, o⟩ := by
  have heq := h.skip_eq []
  rwa [List.append_nil] at heq

/-- One turn of the scan: a header and its payload are there. -/
theorem step (h : Scanned maxDepth bs o due) (hdue : due.length ≤ maxDepth) {extent : Extent}
    {r r' : Slice} (hextent : readExtent ⟨bs.drop o, o⟩ = (.ok extent, r))
    (hskip : ofRead (Readable.skip extent.payload) r = (.ok (), r'))
    (hopen : openChildren extent.children due ≠ []) :
    Scanned maxDepth bs r'.offset (openChildren extent.children due) := by
  obtain ⟨header, hheader, hr, hreads⟩ := local_readExtent.offset_eq hextent
  obtain ⟨payload, hpayload, hr', hreads'⟩ := (local_skip _).offset_eq hskip
  have hdrop : bs.drop o = header ++ (payload ++ r'.rest) := by
    rw [← hpayload]
    exact hheader
  have hoffset : r'.offset = o + header.length + payload.length := by rw [hr', hr]
  have hlen : bs.length - o = header.length + (payload.length + r'.rest.length) := by
    rw [← List.length_drop, hdrop, List.length_append, List.length_append]
  have hle := h.offset_le
  refine ⟨by omega, fun more => ?_⟩
  have hfrom : (bs ++ more).drop o = header ++ (payload ++ (r'.rest ++ more)) := by
    rw [List.drop_append_of_le_length hle, hdrop, List.append_assoc, List.append_assoc]
  have hto : (bs ++ more).drop r'.offset = r'.rest ++ more := by
    rw [hoffset, ← List.drop_drop, ← List.drop_drop, hfrom, List.drop_left, List.drop_left]
  rw [h.skip_eq, pending_eq hdue, hfrom, bind_ok (hreads _ _), bind_ok (hreads' _ _),
    skipItems_eq_pending hopen, hto, hoffset]

/-- Bytes that are missing for what is due are missing for the whole value. -/
theorem short (h : Scanned maxDepth bs o due) {k : Nat} {r : Slice}
    (hshort : pending maxDepth due ⟨bs.drop o, o⟩ = (.error (.endOfBuffer k), r)) :
    decode maxDepth bs = .error (.endOfBuffer k) := by
  have hskip := h.skip_eq_self.trans hshort
  have hrun := skipAny_apply maxDepth (Slice.ofBytes bs)
  rw [Reading.run, hskip] at hrun
  unfold decode
  rcases hread : (readAny maxDepth).run (Slice.ofBytes bs) with ⟨e | v, r'⟩ <;>
    rw [hread] at hrun <;> cases hrun
  rfl

theorem short_extent (h : Scanned maxDepth bs o due) (hdue : due.length ≤ maxDepth) {k : Nat}
    {r : Slice} (hextent : readExtent ⟨bs.drop o, o⟩ = (.error (.endOfBuffer k), r)) :
    decode maxDepth bs = .error (.endOfBuffer k) := by
  refine h.short (r := r) ?_
  rw [pending_eq hdue, bind_error hextent]

theorem short_payload (h : Scanned maxDepth bs o due) (hdue : due.length ≤ maxDepth) {k : Nat}
    {extent : Extent} {r r' : Slice} (hextent : readExtent ⟨bs.drop o, o⟩ = (.ok extent, r))
    (hskip : ofRead (Readable.skip extent.payload) r = (.error (.endOfBuffer k), r')) :
    decode maxDepth bs = .error (.endOfBuffer k) := by
  refine h.short (r := r') ?_
  rw [pending_eq hdue, bind_ok hextent, bind_error hskip]

end Scanned

/-! ## Scans over a queue -/

/-- The place that a scan has saved; none is saved at the front. -/
def SavedAt (q : ByteQueue) (o : Nat) : Option Mark → Prop
  | none => o = 0
  | some m => m.At q o

/-- A scan tells the truth about the bytes of a queue. -/
def Scan.Good (maxDepth : Nat) (q : ByteQueue) (scan : Scan) : Prop :=
  ∃ o, Scanned maxDepth q.toBytes o scan.due ∧ SavedAt q o scan.mark

theorem Scan.good_start (maxDepth : Nat) (q : ByteQueue) : Scan.start.Good maxDepth q :=
  ⟨0, Scanned.start _ _, rfl⟩

theorem Scan.Good.push {q : ByteQueue} {scan : Scan} (h : scan.Good maxDepth q) (chunk : Bytes) :
    scan.Good maxDepth (q.push chunk) := by
  obtain ⟨o, hscanned, hsaved⟩ := h
  refine ⟨o, ?_, ?_⟩
  · rw [ByteQueue.toBytes_push]
    exact hscanned.append chunk
  · cases hmark : scan.mark with
    | none =>
      rw [hmark] at hsaved
      exact hsaved
    | some m =>
      rw [hmark] at hsaved
      exact Mark.At.push hsaved chunk

/-- A scan that comes to no result has found bytes missing, and tells the truth. -/
theorem scanHeaders_false {q : ByteQueue} {turns : Nat} {c : Cursor} {r : Slice}
    {scan scan' : Scan} (hc : Follows q c r) (hscanned : Scanned maxDepth q.toBytes r.offset scan.due)
    (hsaved : SavedAt q r.offset scan.mark) (hturns : r.rest.length < turns)
    (h : scanHeaders maxDepth turns c scan = (false, scan')) :
    (∃ o, decode maxDepth q.toBytes = .error (.endOfBuffer o)) ∧ scan'.Good maxDepth q := by
  induction turns generalizing c r scan with
  | zero => exact absurd hturns (Nat.not_lt_zero _)
  | succ turns ih =>
    have hrest := hc.2
    have hr : r = ⟨q.toBytes.drop r.offset, r.offset⟩ := by rw [← hrest]
    rw [scanHeaders] at h
    split at h
    case isTrue => cases h
    case isFalse hdue =>
      replace hdue := Nat.le_of_not_lt hdue
      rcases (matches_readExtent (simulates_follows q) c r hc).cases with
        ⟨e, c₁, r₁, hcursor, hextent, hc₁⟩ | ⟨extent, c₁, r₁, hcursor, hextent, hc₁⟩
      · rw [run, hcursor] at h
        rw [hr] at hextent
        cases e with
        | endOfBuffer k =>
          cases h
          exact ⟨⟨k, hscanned.short_extent hdue hextent⟩, r.offset, hscanned, hsaved⟩
        | invalidByte b k => cases h
        | depthExceeded k => cases h
      · rw [run, hcursor] at h
        have hlt := offset_lt_of_readExtent hextent
        rw [hr] at hextent
        rcases (agree_skip extent.payload hc₁).cases with
          ⟨e, c₂, r₂, hcskip, hskip, hc₂⟩ | ⟨u, c₂, r₂, hcskip, hskip, hc₂⟩
        · simp only [hcskip] at h
          cases h
          exact ⟨⟨_, hscanned.short_payload hdue hextent (ofRead_error hskip)⟩, r.offset, hscanned,
            hsaved⟩
        · simp only [hcskip] at h
          obtain ⟨_, -, hoffset, -⟩ := (local_skip _).offset_eq (ofRead_ok hskip)
          have hle := hc₂.1.offset_le
          have hlen : r₂.rest.length < turns := by
            rw [hrest, List.length_drop] at hturns
            rw [hc₂.2, List.length_drop]
            omega
          split at h
          case h_1 => cases h
          case h_2 hopen =>
            refine ih hc₂ ?_ ?_ hlen h
            · exact hscanned.step hdue hextent (ofRead_ok hskip) hopen
            · exact hc₂.1.mark

end MessagePack
