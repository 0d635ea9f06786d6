import MessagePack.Proofs.Bytes.Fifo
import MessagePack.Proofs.Wire.Simulation

/-!
# Reading through cursors

However the bytes of a queue are cut into chunks, a cursor answers like the byte string from its
place on, errors and offsets included, whatever it is asked and also after it has failed. It stands
at the only place that far from the front, so a place that it saves is the one that is found again
by counting the bytes from the front, however many chunks have come since.

* `cursor_reads_like_slice`: cursors and byte strings.
* `Views`, `cursorAt_mark`: resuming at a saved place and skipping to it.
-/

namespace MessagePack

open Reading

variable {σ τ : Type}

/-! ## Steps -/

/-- What an input can be asked. -/
inductive InputStep where
  | byte
  | field (n : Nat)
  | payload (n : Nat)
  | skip (n : Nat)
  | value (maxDepth : Nat)
  | skipValue (maxDepth : Nat)

/-- What an input answers. -/
inductive InputAnswer where
  | byte (answer : Except ShortRead UInt8)
  | bytes (answer : Except ShortRead Bytes)
  | skipped (answer : Except ShortRead Unit)
  | value (answer : Except DecodeError Value)
  | skippedValue (answer : Except DecodeError Unit)

/-- The short read that an answer reports; errors of decoding come after reads of their own. -/
def InputAnswer.shortRead? : InputAnswer → Option ShortRead
  | byte (.error e) | bytes (.error e) | skipped (.error e) => some e
  | _ => none

/-- What an input shows after a step. -/
structure Observation where
  answer : InputAnswer
  offset : Nat
  remaining? : Option Nat

/-- Asks an input. -/
def InputStep.perform [Readable σ] (s : σ) : InputStep → InputAnswer × σ
  | byte => (Readable.readByte s).map .byte id
  | field n => (Readable.readField n s).map .bytes id
  | payload n => (Readable.readPayload n s).map .bytes id
  | skip n => (Readable.skip n s).map .skipped id
  | value maxDepth => ((readAny maxDepth).run s).map .value id
  | skipValue maxDepth => ((skipAny maxDepth).run s).map .skippedValue id

/-- The input after steps, one after the other. -/
def performAll [Readable σ] (s : σ) (steps : List InputStep) : σ :=
  steps.foldl (fun s step => (step.perform s).2) s

/-- What an input shows after each of some steps. -/
def observations [Readable σ] (s : σ) : List InputStep → List Observation
  | [] => []
  | step :: steps =>
    let (answer, s) := step.perform s
    ⟨answer, Readable.offset s, Readable.remaining? s⟩ :: observations s steps

/-! ## Inputs that behave alike -/

section

variable {R : σ → τ → Prop}

theorem endAlike_skipItems {F : DecodeError → σ → τ → Prop} {item : Reading σ Unit}
    {item' : Reading τ Unit} (h : EndAlike R F item item') (n : Nat) :
    EndAlike R F (skipItems item n) (skipItems item' n) := by
  induction n with
  | zero => exact EndAlike.pure ()
  | succ n ih =>
    rw [skipItems_succ, skipItems_succ]
    exact h.bind fun _ => ih

variable [Readable σ] [Readable τ]

theorem matches_skipValue (hR : Simulates R) (levels : Nat) :
    Matches R (skipValue levels) (skipValue levels) := by
  have hends : EndAlike R (fun _ => R) (skipValue levels) (skipValue levels) := by
    induction levels with
    | zero =>
      intro s t hst
      unfold skipValue tooDeep
      rw [hR.offset hst]
      exact .error hst
    | succ levels ih =>
      unfold skipValue
      refine (endAlike_readExtent hR.readsAlike (.ofRead (hR.skip 1))).bind fun extent => ?_
      exact (EndAlike.ofRead (hR.skip extent.payload)).bind fun _ => endAlike_skipItems ih _
  exact hends.matches

theorem agree_readByte (hR : Simulates R) {s : σ} {t : τ} (hst : R s t) :
    Agree R (Readable.readByte s) (Readable.readByte t) := by
  unfold Readable.readByte
  rcases (hR.readField 1 hst).cases with ⟨e, s', t', hs, ht, h⟩ | ⟨bs, s', t', hs, ht, h⟩ <;>
    rw [hs, ht] <;> exact ⟨rfl, h⟩

/-- Inputs that behave alike answer every step alike. -/
theorem alike_perform (hR : Simulates R) {s : σ} {t : τ} (hst : R s t) (step : InputStep) :
    (step.perform s).1 = (step.perform t).1 ∧ R (step.perform s).2 (step.perform t).2 := by
  cases step with
  | byte => exact (agree_readByte hR hst).imp_left (congrArg _)
  | field n => exact (hR.readField n hst).imp_left (congrArg _)
  | payload n => exact (hR.readPayload n hst).imp_left (congrArg _)
  | skip n => exact (hR.skip n hst).imp_left (congrArg _)
  | value maxDepth => exact (matches_readValue hR (maxDepth + 1) s t hst).imp_left (congrArg _)
  | skipValue maxDepth => exact (matches_skipValue hR (maxDepth + 1) s t hst).imp_left (congrArg _)

/-- Inputs that behave alike go on to do so. -/
theorem alike_performAll (hR : Simulates R) {s : σ} {t : τ} (hst : R s t)
    (steps : List InputStep) : R (performAll s steps) (performAll t steps) := by
  induction steps generalizing s t with
  | nil => exact hst
  | cons step steps ih => exact ih (alike_perform hR hst step).2

/-- Inputs that behave alike show the same. -/
theorem alike_observations (hR : Simulates R)
    (hremaining : ∀ {s t}, R s t → Readable.remaining? s = Readable.remaining? t) {s : σ} {t : τ}
    (hst : R s t) (steps : List InputStep) : observations s steps = observations t steps := by
  induction steps generalizing s t with
  | nil => rfl
  | cons step steps ih =>
    obtain ⟨hanswer, hrest⟩ := alike_perform hR hst step
    simp only [observations]
    rw [hanswer, hR.offset hrest, hremaining hrest, ih hrest]

end

/-! ## Short reads -/

/-- The input is left as it was, or the answer is no error. -/
def Stays {ε α : Type} (s : σ) : Except ε α × σ → Prop
  | (.ok _, _) => True
  | (.error _, t) => t = s

theorem Stays.of_shortRead {α : Type} {s : σ} {a : Except ShortRead α × σ}
    {f : Except ShortRead α → InputAnswer} {e : ShortRead} (h : Stays s a)
    (hok : ∀ x, (f (.ok x)).shortRead? = none) (he : (f a.1).shortRead? = some e) : a.2 = s := by
  obtain ⟨answer, t⟩ := a
  cases answer with
  | error e => exact h
  | ok x =>
    rw [hok x] at he
    cases he

/-- Reads that fail leave the input as it was. -/
structure FailInPlace (σ : Type) [Readable σ] : Prop where
  readField : ∀ n (s : σ), Stays s (Readable.readField n s)
  readPayload : ∀ n (s : σ), Stays s (Readable.readPayload n s)
  skip : ∀ n (s : σ), Stays s (Readable.skip n s)

namespace FailInPlace

variable [Readable σ]

theorem readByte (h : FailInPlace σ) (s : σ) : Stays s (Readable.readByte s) := by
  have hfield := h.readField 1 s
  unfold Readable.readByte
  generalize Readable.readField 1 s = a at hfield ⊢
  rcases a with ⟨_ | _, _⟩
  · exact hfield
  · trivial

/-- A step that reports a short read leaves the input as it was. -/
theorem perform (h : FailInPlace σ) {step : InputStep} {e : ShortRead} {s : σ}
    (he : (step.perform s).1.shortRead? = some e) : (step.perform s).2 = s := by
  cases step with
  | byte => exact (h.readByte s).of_shortRead (fun _ => rfl) he
  | field n => exact (h.readField n s).of_shortRead (fun _ => rfl) he
  | payload n => exact (h.readPayload n s).of_shortRead (fun _ => rfl) he
  | skip n => exact (h.skip n s).of_shortRead (fun _ => rfl) he
  | value maxDepth | skipValue maxDepth => cases he

end FailInPlace

theorem Cursor.stays_read (n : Nat) (c : Cursor) : Stays c (c.read n) := by
  unfold read
  split
  · rfl
  · trivial

theorem Slice.stays_read (n : Nat) (r : Slice) : Stays r (r.read n) := by
  unfold read
  split
  · trivial
  · rfl

theorem Cursor.failInPlace : FailInPlace Cursor where
  readField := stays_read
  readPayload := stays_read
  skip n c := by
    have hread := stays_read n c
    show Stays c (c.skip n)
    unfold skip
    generalize c.read n = a at hread ⊢
    rcases a with ⟨_ | _, _⟩
    · exact hread
    · trivial

theorem Slice.failInPlace : FailInPlace Slice where
  readField := stays_read
  readPayload := stays_read
  skip n r := by
    have hread := stays_read n r
    show Stays r (r.skip n)
    unfold skip
    generalize r.read n = a at hread ⊢
    rcases a with ⟨_ | _, _⟩
    · exact hread
    · trivial

/-! ## Cursors and byte strings -/

section

variable {q : ByteQueue} {o : Nat} {c : Cursor} {r : Slice}

theorem Follows.remaining?_eq (h : Follows q c r) :
    Readable.remaining? c = Readable.remaining? r := by
  show some c.remaining = some r.rest.length
  rw [h.1.remaining_eq, h.2]

/-- However the bytes are cut, a cursor shows what the byte string from its place on does. -/
theorem Follows.observations_eq (h : Follows q c r) (steps : List InputStep) :
    observations c steps = observations r steps :=
  alike_observations (simulates_follows q) Follows.remaining?_eq h steps

theorem Cursor.At.follows (h : c.At q o) : Follows q c ⟨q.toBytes.drop o, o⟩ := ⟨h, rfl⟩

theorem Follows.at_offset (h : Follows q c r) : c.At q c.offset := by
  have hat := h.1
  rwa [← hat.offset_eq] at hat

/-- Every walk over bytes that are there passes as many of them and comes to a place in the chunks,
behind the last of these only when it passes all bytes. -/
def Cursor.InRange (q : ByteQueue) (c : Cursor) : Prop :=
  ∀ n ≤ c.remaining, (c.position.advance n).1.length = n ∧
    (c.position.advance n).2.InRange q.chunks ∧
    (n = c.remaining ↔ (c.position.advance n).2.chunk = q.chunks.length)

theorem Cursor.At.offset_add_remaining (h : c.At q o) :
    q.consumed + (o + c.remaining) = q.chunks.flatten.length := by
  have hle := h.position_at.offset_le
  rw [h.remaining_eq, q.drop_toBytes, List.length_drop]
  omega

theorem Cursor.At.inRange (h : c.At q o) : c.InRange q := by
  intro n hn
  have hsum := h.offset_add_remaining
  have hlen : n ≤ (q.toBytes.drop o).length := h.remaining_eq ▸ hn
  obtain ⟨hbytes, hat⟩ := h.advance hlen
  obtain ⟨hrange, hend⟩ := hat.inRange
  refine ⟨?_, hrange, ?_⟩
  · rw [hbytes, List.length_take_of_le hlen]
  · rw [← hend]
    omega

/-- With no bytes left, a cursor is at the beginning of the next chunk to come. -/
theorem Cursor.At.chunk_eq_of_remaining (h : c.At q o) (hend : c.remaining = 0) :
    c.mark.chunk = q.chunks.length ∧ c.mark.within = 0 := by
  have hsum := h.offset_add_remaining
  rw [hend, Nat.add_zero] at hsum
  obtain ⟨hrange, hlast⟩ := h.position_at.inRange
  have hchunk : c.position.chunk = q.chunks.length := hlast.1 hsum
  refine ⟨hchunk, ?_⟩
  rcases hrange with ⟨bs, hbs, -⟩ | ⟨-, hwithin⟩
  · rw [hchunk, List.getElem?_eq_none (Nat.le_refl _)] at hbs
    cases hbs
  · exact hwithin

/-- The place of a cursor denotes the cursor. -/
theorem Cursor.At.cursorAt_eq (h : c.At q o) : q.cursorAt c.mark = c :=
  (Cursor.at_cursorAt h.mark).eq h

end

/-- A cursor at the front of a queue, whatever has been done with the queue, answers like the byte
string that is queued, whatever it is asked and also after errors. A read that fails moves neither
of them. The cursor stays in the chunks, and its place still denotes it: the queue is as it was. -/
theorem cursor_reads_like_slice (calls : List ByteQueue.Call) (steps : List InputStep) :
    let q := ByteQueue.after calls
    let bs := Slice.ofBytes (ByteQueue.unread calls)
    let c := performAll q.cursor steps
    let r := performAll bs steps
    observations q.cursor steps = observations bs steps ∧
      (∀ (step : InputStep) (e : ShortRead), (step.perform c).1.shortRead? = some e →
        (step.perform r).1.shortRead? = some e ∧ (step.perform c).2 = c ∧
          (step.perform r).2 = r) ∧
      c.InRange q ∧ q.cursorAt c.mark = c := by
  intro q bs c r
  have hfront : Follows q q.cursor bs := by
    have hfollows := follows_cursor q
    rwa [ByteQueue.toBytes_after] at hfollows
  have hhere : Follows q c r := alike_performAll (simulates_follows q) hfront steps
  refine ⟨hfront.observations_eq steps, fun step e he => ?_, hhere.1.inRange,
    hhere.1.cursorAt_eq⟩
  have hanswer := (alike_perform (simulates_follows q) hhere step).1
  have he' : (step.perform r).1.shortRead? = some e := hanswer ▸ he
  exact ⟨he', Cursor.failInPlace.perform he, Slice.failInPlace.perform he'⟩

/-- A number across three chunks, the first of them consumed in part, and a read past the end. -/
theorem cursor_reads_like_slice_short :
    let q := ByteQueue.after [.push [0xff, 0xcd], .push [1], .push [2, 0xc0], .byte]
    let c := performAll q.cursor [.value 0]
    ((InputStep.field 2).perform c).1.shortRead? = some ⟨3, 2, 1⟩ ∧
      ((InputStep.field 2).perform c).2 = c ∧
      observations q.cursor [.value 0, .field 2, .byte] =
        observations (Slice.ofBytes [0xcd, 1, 2, 0xc0]) [.value 0, .field 2, .byte] := by
  intro q c
  have hshort : ((InputStep.field 2).perform c).1.shortRead? = some ⟨3, 2, 1⟩ := rfl
  obtain ⟨-, hstay, -⟩ := cursor_reads_like_slice
    [.push [0xff, 0xcd], .push [1], .push [2, 0xc0], .byte] [.value 0]
  obtain ⟨hshown, -⟩ := cursor_reads_like_slice
    [.push [0xff, 0xcd], .push [1], .push [2, 0xc0], .byte] [.value 0, .field 2, .byte]
  exact ⟨hshort, (hstay _ _ hshort).2.1, hshown⟩

/-! ## Saved places -/

/-- The cursors that a queue gives while chunks are only added: at its front, after steps, and at a
place that one of them has saved. -/
inductive Views : ByteQueue → Cursor → Prop
  | front (calls : List ByteQueue.Call) :
    Views (ByteQueue.after calls) (ByteQueue.after calls).cursor
  | step {q : ByteQueue} {c : Cursor} (h : Views q c) (step : InputStep) :
    Views q (step.perform c).2
  | resume {q : ByteQueue} {c : Cursor} (h : Views q c) (chunks : List Bytes) :
    Views (q.pushAll chunks) ((q.pushAll chunks).cursorAt c.mark)

theorem Views.at {q : ByteQueue} {c : Cursor} (h : Views q c) : c.At q c.offset := by
  induction h with
  | front calls => exact Cursor.at_cursor _
  | step h step ih =>
    -- The byte string from the place on takes the step too, and shows how far it goes.
    exact (alike_perform (simulates_follows _) ih.follows step).2.at_offset
  | resume h chunks ih => exact Cursor.at_cursorAt (ih.mark.pushAll chunks)

theorem Cursor.skip_of_le {q : ByteQueue} {o n : Nat} {c : Cursor} (h : c.At q o)
    (hn : n ≤ (q.toBytes.drop o).length) : ∃ c', c.skip n = (.ok (), c') ∧ c'.At q (o + n) := by
  obtain ⟨c', hread, hat⟩ := Cursor.read_of_le h hn
  refine ⟨c', ?_, hat⟩
  rw [skip, hread]

/-- From the front a cursor skips to every cursor of the queue. -/
theorem Cursor.At.skip_eq {q : ByteQueue} {o : Nat} {c : Cursor} (h : c.At q o) :
    q.cursor.skip o = (.ok (), c) := by
  obtain ⟨c', hskip, hat⟩ := Cursor.skip_of_le (Cursor.at_cursor q) h.offset_le
  rw [Nat.zero_add] at hat
  rw [hskip, hat.eq h]

/-- The place that a cursor has saved is resumed exactly, however many chunks have come since. It is
where a cursor at the front comes when it skips as many bytes, and from there on the two answer
alike, as the byte string from there on does. With no bytes left, the chunk of the saved place is
the next one to come. -/
theorem cursorAt_mark {q : ByteQueue} {c : Cursor} (h : Views q c) (chunks : List Bytes) :
    let later := q.pushAll chunks
    let resumed := later.cursorAt c.mark
    ∃ skipped, later.cursor.skip c.offset = (.ok (), skipped) ∧ resumed = skipped ∧
      resumed.offset = c.offset ∧ resumed.remaining = c.remaining + chunks.flatten.length ∧
      (∀ steps, observations resumed steps = observations skipped steps ∧
        observations resumed steps =
          observations (⟨later.toBytes.drop c.offset, c.offset⟩ : Slice) steps) ∧
      (c.remaining = 0 → c.mark.chunk = q.chunks.length ∧ c.mark.within = 0) := by
  intro later resumed
  have hat := h.at
  have hresumed : resumed.At later c.offset := Cursor.at_cursorAt (hat.mark.pushAll chunks)
  refine ⟨resumed, hresumed.skip_eq, rfl, rfl, ?_, fun steps => ⟨rfl, ?_⟩, fun hend => ?_⟩
  · rw [hresumed.remaining_eq, hat.remaining_eq, ByteQueue.toBytes_pushAll,
      List.drop_append_of_le_length hat.offset_le, List.length_append]
  · exact hresumed.follows.observations_eq steps
  · exact hat.chunk_eq_of_remaining hend

/-- Bytes come later than a cursor at the end, which resumes at the first of them. -/
theorem cursorAt_mark_end :
    let q := ByteQueue.after [.push [1, 2], .byte]
    let c := (InputStep.byte.perform q.cursor).2
    c.remaining = 0 ∧ c.mark = ⟨1, 0, 1⟩ ∧
      ∃ skipped, (q.pushAll [[], [3], [4, 5]]).cursor.skip 1 = (.ok (), skipped) ∧
        (q.pushAll [[], [3], [4, 5]]).cursorAt c.mark = skipped ∧
        skipped.position = ⟨[[3], [4, 5]], 1, 0⟩ ∧ skipped.remaining = 3 := by
  refine ⟨rfl, rfl, ?_⟩
  obtain ⟨skipped, hskip, hresumed, -⟩ :=
    cursorAt_mark (.step (.front [.push [1, 2], .byte]) .byte) [[], [3], [4, 5]]
  exact ⟨skipped, hskip, hresumed, hresumed ▸ rfl, hresumed ▸ rfl⟩

end MessagePack
