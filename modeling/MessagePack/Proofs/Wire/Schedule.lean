import MessagePack.Proofs.Wire.Incremental
import MessagePack.Proofs.Wire.Sequence

/-!
# Chunks and attempts in any order

However a byte string is cut into chunks, and whenever values are asked for in between, an
incremental decoder gives the values that decoding all of it gives, in turn and no others, and
reports the same error. What it has answered stays right whatever bytes come later.

* `Delivers`: a decoder and the values it has given so far, preserved by pushes and attempts.
* `schedule_independent`: every run.
-/

namespace MessagePack.IncrementalDecoder

/-! ## Answers -/

/-- The answer to an attempt to take a value. -/
abbrev Answer := Except DecodeError (Option Value)

/-- The value in an answer. -/
def Answer.values : Answer → List Value
  | .ok (some v) => [v]
  | _ => []

/-- What a call is answered, if it is an attempt. -/
def answersTo (d : IncrementalDecoder) : Call → List Answer
  | .next => [d.next.1]
  | .push _ | .clear => []

/-- What the attempts among calls are answered. -/
def answersFrom (d : IncrementalDecoder) : List Call → List Answer
  | [] => []
  | call :: calls => d.answersTo call ++ answersFrom (d.apply call) calls

/-- What the attempts of a run are answered. -/
def answers (maxDepth : Nat) (calls : List Call) : List Answer :=
  answersFrom (ofMaxDepth maxDepth) calls

/-- The values that a run gives. -/
def returned (maxDepth : Nat) (calls : List Call) : List Value :=
  (answers maxDepth calls).flatMap Answer.values

/-- How asking for values ends: bytes may come yet, other errors stay. -/
def lastAnswer : Option DecodeError → Answer
  | none | some (.endOfBuffer _) => .ok none
  | some e => .error e

variable {maxDepth : Nat} {bs : Bytes} {d : IncrementalDecoder}

/-- The calls before an answer. -/
theorem exists_of_mem_answersFrom {calls : List Call} {answer : Answer}
    (h : answer ∈ answersFrom d calls) :
    ∃ before later, calls = before ++ .next :: later ∧ (before.foldl apply d).next.1 = answer := by
  induction calls generalizing d with
  | nil => cases h
  | cons call calls ih =>
    rcases List.mem_append.1 h with h | h
    · cases call with
      | next => exact ⟨[], calls, rfl, (List.mem_singleton.1 h).symm⟩
      | push chunk | clear => cases h
    · obtain ⟨before, later, rfl, hanswer⟩ := ih h
      exact ⟨call :: before, later, rfl, hanswer⟩

/-! ## Values given so far -/

/-- A decoder to which some bytes have come, and which has given some values: they come one after
the other, and the consumed bytes end with the last of them. -/
structure Delivers (maxDepth : Nat) (bs : Bytes) (d : IncrementalDecoder) (vs : List Value) :
    Prop where
  tracks : Tracks maxDepth bs d
  consecutive : Consecutive maxDepth bs 0 vs d.consumed

theorem Tracks.decode_waiting (h : Tracks maxDepth bs d) :
    decode d.maxDepth d.waiting = decode maxDepth (bs.drop d.consumed) := by
  rw [h.maxDepth_eq, h.waiting_eq]

namespace Delivers

variable {vs : List Value}

theorem push (h : Delivers maxDepth bs d vs) (chunk : Bytes) :
    Delivers maxDepth (bs ++ chunk) (d.push chunk) vs :=
  ⟨h.tracks.apply (.push chunk), h.consecutive.append chunk⟩

theorem next (h : Delivers maxDepth bs d vs) :
    Delivers maxDepth bs d.next.2 (vs ++ Answer.values d.next.1) := by
  refine ⟨h.tracks.next, ?_⟩
  rcases hdecode : decode d.maxDepth d.waiting with e | ⟨v, n⟩
  · obtain ⟨scan, hnext, -⟩ := next_of_failure h.tracks.good hdecode
    have hvalues : Answer.values (d.failure e) = [] := by cases e <;> rfl
    rw [hnext, hvalues, List.append_nil]
    exact h.consecutive
  · obtain ⟨-, d', hnext, -, -, -, hconsumed⟩ := next_of_ok h.tracks.good hdecode
    rw [hnext]
    show Consecutive maxDepth bs 0 (vs ++ [v]) d'.consumed
    rw [hconsumed]
    exact h.consecutive.snoc (h.tracks.decode_waiting.symm.trans hdecode)

theorem apply (h : Delivers maxDepth bs d vs) {call : Call} (hcall : call ≠ .clear) :
    Delivers maxDepth (bs ++ call.bytes) (d.apply call)
      (vs ++ (d.answersTo call).flatMap Answer.values) := by
  cases call with
  | push chunk =>
    rw [answersTo, List.flatMap_nil, List.append_nil]
    exact h.push chunk
  | next =>
    rw [Call.bytes, List.append_nil, answersTo, List.flatMap_singleton]
    exact h.next
  | clear => exact absurd rfl hcall

theorem foldl (h : Delivers maxDepth bs d vs) {calls : List Call} (hclear : .clear ∉ calls) :
    Delivers maxDepth (bs ++ arrived calls) (calls.foldl IncrementalDecoder.apply d)
      (vs ++ (answersFrom d calls).flatMap Answer.values) := by
  induction calls generalizing bs d vs with
  | nil =>
    rw [arrived, List.flatMap_nil, List.append_nil, answersFrom, List.flatMap_nil, List.append_nil]
    exact h
  | cons call calls ih =>
    rw [arrived, List.flatMap_cons, ← List.append_assoc, answersFrom, List.flatMap_append,
      ← List.append_assoc]
    exact ih (h.apply (List.ne_of_not_mem_cons hclear).symm) (List.not_mem_of_not_mem_cons hclear)

/-- An error is that of decoding what is left, and stays when bytes come. -/
theorem of_error (h : Delivers maxDepth bs d vs) {e : DecodeError} (he : d.next.1 = .error e)
    (more : Bytes) :
    ∃ failure, decode maxDepth ((bs ++ more).drop d.consumed) = .error failure ∧
      (∀ o, failure ≠ .endOfBuffer o) ∧ e = failure.shift d.consumed := by
  rcases hdecode : decode d.maxDepth d.waiting with failure | ⟨v, n⟩
  · obtain ⟨scan, hnext, -⟩ := next_of_failure h.tracks.good hdecode
    rw [hnext] at he
    have hhard : (∀ o, failure ≠ .endOfBuffer o) ∧ e = failure.shift d.consumed := by
      cases failure <;> cases he <;> exact ⟨nofun, rfl⟩
    refine ⟨failure, ?_, hhard⟩
    rw [List.drop_append_of_le_length h.tracks.consumed_le]
    exact decode_append_of_error (h.tracks.decode_waiting.symm.trans hdecode) hhard.1 more
  · obtain ⟨-, d', hnext, -⟩ := next_of_ok h.tracks.good hdecode
    rw [hnext] at he
    cases he

/-- What a decoder has given begins what all bytes give. -/
theorem prefix_decodeAll (h : Delivers maxDepth bs d vs) (more : Bytes) :
    ∃ rest, vs ++ rest = (decodeAll maxDepth (bs ++ more)).values ∧
      Consecutive maxDepth (bs ++ more) d.consumed rest (decodeAll maxDepth (bs ++ more)).stop := by
  obtain ⟨hall, failure, hexhausts⟩ := consecutive_decodeAll maxDepth (bs ++ more)
  exact (h.consecutive.append more).prefix_of_stuck hall hexhausts.fails

/-- An error that a decoder reports is that of all bytes. -/
theorem error_decodeAll (h : Delivers maxDepth bs d vs) {e : DecodeError}
    (he : d.next.1 = .error e) (more : Bytes) :
    (decodeAll maxDepth (bs ++ more)).error = some e := by
  obtain ⟨hall, failure, hexhausts⟩ := consecutive_decodeAll maxDepth (bs ++ more)
  obtain ⟨failure', hfails, hne, rfl⟩ := h.of_error he more
  obtain ⟨-, hstop⟩ := (h.consecutive.append more).eq_of_stuck hfails hall hexhausts.fails
  rw [hstop] at hfails ⊢
  cases hexhausts.fails.symm.trans hfails
  exact hexhausts.error_of_ne hne

end Delivers

/-- Every run without dropped bytes. -/
theorem delivers_after (maxDepth : Nat) {calls : List Call} (hclear : .clear ∉ calls) :
    Delivers maxDepth (arrived calls) (after maxDepth calls) (returned maxDepth calls) :=
  Delivers.foldl ⟨tracks_after maxDepth [], .nil⟩ hclear

theorem arrived_append (calls calls' : List Call) :
    arrived (calls ++ calls') = arrived calls ++ arrived calls' := List.flatMap_append

/-- An error that a run reports is that of all bytes. -/
theorem error_of_mem_answers {calls : List Call} (hclear : .clear ∉ calls) {e : DecodeError}
    (he : .error e ∈ answers maxDepth calls) (more : Bytes) :
    (decodeAll maxDepth (arrived calls ++ more)).error = some e := by
  obtain ⟨before, later, rfl, hanswer⟩ := exists_of_mem_answersFrom he
  have h := delivers_after maxDepth fun hmem => hclear (List.mem_append_left _ hmem)
  rw [arrived_append, List.append_assoc]
  exact h.error_decodeAll hanswer _

/-! ## Asking until no value comes -/

theorem failure_eq_lastAnswer (d : IncrementalDecoder) (e : DecodeError) :
    d.failure e = lastAnswer (some (e.shift d.consumed)) := by
  cases e <;> rfl

/-- As many attempts as values are left are answered with these, and one more with the reason why
there are no others. -/
theorem Tracks.answersFrom_replicate (h : Tracks maxDepth bs d) {vs : List Value} {stop : Nat}
    {failure : DecodeError} (hvs : Consecutive maxDepth bs d.consumed vs stop)
    (hstuck : decode maxDepth (bs.drop stop) = .error failure) :
    answersFrom d (List.replicate (vs.length + 1) .next) =
      vs.map (fun v => .ok (some v)) ++ [lastAnswer (some (failure.shift stop))] := by
  -- By the values that are left: an answer moves the decoder past the first of them.
  generalize hoffset : d.consumed = offset at hvs
  induction hvs generalizing d with
  | nil =>
    subst hoffset
    obtain ⟨scan, hnext, -⟩ := next_of_failure h.good (h.decode_waiting.trans hstuck)
    show [d.next.1] = [_]
    rw [hnext, failure_eq_lastAnswer]
  | @cons o n p v vs hv _ ih =>
    subst hoffset
    obtain ⟨-, d', hnext, -, -, -, hconsumed⟩ := next_of_ok h.good (h.decode_waiting.trans hv)
    have hrest := h.next
    rw [hnext] at hrest
    show d.next.1 :: answersFrom d.next.2 (List.replicate (vs.length + 1) .next) = _
    rw [hnext, ih hrest hstuck hconsumed]
    rfl

theorem lastAnswer_of_exhausts {all : DecodedSequence} {failure : DecodeError}
    (h : all.Exhausts maxDepth bs failure) :
    lastAnswer all.error = lastAnswer (some (failure.shift all.stop)) := by
  cases failure with
  | endOfBuffer o =>
    rcases h.error_eq with herror | ⟨herror, -⟩
    · rw [herror]
    · rw [herror]
      rfl
  | invalidByte b o => rw [h.error_of_ne nofun]
  | depthExceeded o => rw [h.error_of_ne nofun]

/-! ## Every run -/

/-- However bytes arrive and whenever values are asked for, as long as none are dropped: at every
moment the values returned are the first of those that decoding all the bytes gives, the consumed
bytes end with the last of them, and an error is the one that decoding all the bytes gives. Asked
from the end of the run on until no value comes, the decoder returns just the remaining values, and
then it reports that error, unless bytes are missing. -/
theorem schedule_independent (maxDepth : Nat) (calls : List Call) (hclear : .clear ∉ calls) :
    let all := decodeAll maxDepth (arrived calls)
    (∀ before, before <+: calls →
      returned maxDepth before <+: all.values ∧
      Consecutive maxDepth (arrived calls) 0 (returned maxDepth before)
        (after maxDepth before).consumed ∧
      ∀ e, .error e ∈ answers maxDepth before → all.error = some e) ∧
    ∃ rest, returned maxDepth calls ++ rest = all.values ∧
      answersFrom (after maxDepth calls) (List.replicate (rest.length + 1) .next) =
        rest.map (fun v => .ok (some v)) ++ [lastAnswer all.error] := by
  intro all
  constructor
  · rintro before ⟨later, rfl⟩
    have hbefore : .clear ∉ before := fun hmem => hclear (List.mem_append_left _ hmem)
    have h := delivers_after maxDepth hbefore
    obtain ⟨rest, hrest, -⟩ := h.prefix_decodeAll (arrived later)
    have hconsecutive := h.consecutive.append (arrived later)
    have herror : ∀ e, .error e ∈ answers maxDepth before →
        (decodeAll maxDepth (arrived before ++ arrived later)).error = some e :=
      fun e he => error_of_mem_answers hbefore he (arrived later)
    rw [← arrived_append] at hrest hconsecutive herror
    exact ⟨⟨rest, hrest⟩, hconsecutive, herror⟩
  · have h := delivers_after maxDepth hclear
    obtain ⟨hall, failure, hexhausts⟩ := consecutive_decodeAll maxDepth (arrived calls)
    obtain ⟨rest, hvalues, hrest⟩ := h.consecutive.prefix_of_stuck hall hexhausts.fails
    refine ⟨rest, hvalues, ?_⟩
    rw [lastAnswer_of_exhausts hexhausts]
    exact h.tracks.answersFrom_replicate hrest hexhausts.fails

/-- An array comes in three chunks with attempts in between, and after it a byte that begins no
value. -/
theorem schedule_independent_chunks :
    let calls : List Call :=
      [.push [0x01, 0x92], .next, .next, .push [0x05], .next, .push [], .push [0xc0, 0xc1]]
    returned 1 [.push [0x01, 0x92], .next, .next] <+: [.uint8 1, .array [.uint8 5, .nil]] ∧
      ∃ rest, returned 1 calls ++ rest = [.uint8 1, .array [.uint8 5, .nil]] ∧
        answersFrom (after 1 calls) (List.replicate (rest.length + 1) .next) =
          rest.map (fun v => .ok (some v)) ++ [.error (.invalidByte 0xc1 4)] := by
  intro calls
  have hall : decodeAll 1 (arrived calls) =
      ⟨[.uint8 1, .array [.uint8 5, .nil]], 4, some (.invalidByte 0xc1 4)⟩ := by
    show decodeAll 1 [0x01, 0x92, 0x05, 0xc0, 0xc1] = _
    rfl
  obtain ⟨hbefore, hrest⟩ := schedule_independent 1 calls (by simp [calls])
  rw [hall] at hbefore hrest
  exact ⟨(hbefore _ ⟨_, rfl⟩).1, hrest⟩

end MessagePack.IncrementalDecoder
