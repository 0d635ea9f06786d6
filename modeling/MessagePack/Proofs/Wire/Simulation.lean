import MessagePack.Proofs.Bytes.Queue
import MessagePack.Proofs.Wire.Reading

/-!
# Inputs that behave alike

Two kinds of inputs behave alike under a relation that every read keeps with the same answers. Then
all decoding steps end alike on them. A step that fails may leave the inputs in another relation,
which depends on the error. A cursor over a queue behaves like the slice of the bytes from
its place on, and goes on to do so after errors.

* `EndAlike R F x y`: on inputs that `R` relates, two steps give the same answers, and keep the
  inputs related or, with an error, leave them as `F` says.
* `simulates_follows`: cursors and slices.
-/

namespace MessagePack

open Reading

variable {σ τ : Type} {α β : Type}

/-- The answers are the same, and the inputs are left related. -/
def Agree (R : σ → τ → Prop) {ε : Type} (a : Except ε α × σ) (b : Except ε α × τ) : Prop :=
  a.1 = b.1 ∧ R a.2 b.2

theorem Agree.cases {R : σ → τ → Prop} {ε : Type} {a : Except ε α × σ} {b : Except ε α × τ}
    (h : Agree R a b) :
    (∃ e s t, a = (.error e, s) ∧ b = (.error e, t) ∧ R s t) ∨
      (∃ x s t, a = (.ok x, s) ∧ b = (.ok x, t) ∧ R s t) := by
  obtain ⟨answer, s⟩ := a
  obtain ⟨_, t⟩ := b
  obtain ⟨rfl, hrest⟩ := h
  cases answer with
  | error e => exact .inl ⟨e, s, t, rfl, rfl, hrest⟩
  | ok x => exact .inr ⟨x, s, t, rfl, rfl, hrest⟩

/-- Related inputs behave alike. -/
structure Simulates [Readable σ] [Readable τ] (R : σ → τ → Prop) : Prop where
  offset : ∀ {s t}, R s t → Readable.offset s = Readable.offset t
  readField : ∀ n {s t}, R s t → Agree R (Readable.readField n s) (Readable.readField n t)
  readPayload : ∀ n {s t}, R s t → Agree R (Readable.readPayload n s) (Readable.readPayload n t)
  skip : ∀ n {s t}, R s t → Agree R (Readable.skip n s) (Readable.skip n t)

/-- On related inputs the steps agree. -/
def Matches (R : σ → τ → Prop) (x : Reading σ α) (y : Reading τ α) : Prop :=
  ∀ s t, R s t → Agree R (x s) (y t)

/-! ## Steps that end alike -/

/-- The answers are the same. The inputs are left as `R` relates them, or as `F` does after an
error. -/
inductive Ends (R : σ → τ → Prop) (F : DecodeError → σ → τ → Prop) :
    Except DecodeError α × σ → Except DecodeError α × τ → Prop
  | ok {a : α} {s : σ} {t : τ} (h : R s t) : Ends R F (.ok a, s) (.ok a, t)
  | error {e : DecodeError} {s : σ} {t : τ} (h : F e s t) : Ends R F (.error e, s) (.error e, t)

/-- On related inputs the steps end alike. -/
def EndAlike (R : σ → τ → Prop) (F : DecodeError → σ → τ → Prop) (x : Reading σ α)
    (y : Reading τ α) : Prop :=
  ∀ s t, R s t → Ends R F (x s) (y t)

/-- Reads of related inputs end alike. An error that is not about missing bytes comes without a
read, from inputs that are related. -/
structure ReadsAlike [Readable σ] [Readable τ] (R : σ → τ → Prop)
    (F : DecodeError → σ → τ → Prop) : Prop where
  offset : ∀ {s t}, R s t → Readable.offset s = Readable.offset t
  readField : ∀ n, EndAlike R F (ofRead (Readable.readField n)) (ofRead (Readable.readField n))
  readPayload : ∀ n, EndAlike R F (ofRead (Readable.readPayload n)) (ofRead (Readable.readPayload n))
  error : ∀ {e s t}, R s t → (∀ o, e ≠ .endOfBuffer o) → F e s t

namespace EndAlike

variable {R : σ → τ → Prop} {F : DecodeError → σ → τ → Prop}

protected theorem pure (a : α) : EndAlike R F (pure a) (pure a) := fun _ _ h => .ok h

protected theorem bind {x : Reading σ α} {y : Reading τ α} {f : α → Reading σ β}
    {g : α → Reading τ β} (h : EndAlike R F x y) (hf : ∀ a, EndAlike R F (f a) (g a)) :
    EndAlike R F (x >>= f) (y >>= g) := by
  intro s t hst
  have hends := h s t hst
  rw [bind_def, bind_def]
  generalize x s = a, y t = b at hends ⊢
  cases hends with
  | ok hrest => exact hf _ _ _ hrest
  | error hfailed => exact .error hfailed

protected theorem map {x : Reading σ α} {y : Reading τ α} (h : EndAlike R F x y) (f : α → β) :
    EndAlike R F (x >>= fun a => pure (f a)) (y >>= fun a => pure (f a)) :=
  h.bind fun a => EndAlike.pure (f a)

end EndAlike

/-! ## Decoding steps -/

section

variable {R : σ → τ → Prop} {F : DecodeError → σ → τ → Prop}

theorem endAlike_readItems {item : Reading σ Value} {item' : Reading τ Value}
    (h : EndAlike R F item item') (n : Nat) (seen : List Value) :
    EndAlike R F (readItems item n seen) (readItems item' n seen) := by
  induction n generalizing seen with
  | zero => exact EndAlike.pure _
  | succ n ih =>
    rw [readItems_succ, readItems_succ]
    exact h.bind fun v => ih (v :: seen)

theorem endAlike_readEntries {item : Reading σ Value} {item' : Reading τ Value}
    (h : EndAlike R F item item') (n : Nat) (entries : List (Value × Value)) :
    EndAlike R F (readEntries item n entries) (readEntries item' n entries) := by
  induction n generalizing entries with
  | zero => exact EndAlike.pure _
  | succ n ih =>
    rw [readEntries_succ, readEntries_succ]
    exact h.bind fun k => h.bind fun v => ih _

variable [Readable σ] [Readable τ]

theorem ofRead_readByte :
    (ofRead Readable.readByte : Reading σ UInt8) =
      ofRead (Readable.readField 1) >>= fun bs => pure (bs.headD 0) := by
  funext s
  rw [bind_def]
  unfold ofRead Readable.readByte
  rcases Readable.readField 1 s with ⟨_ | _, _⟩ <;> rfl

theorem endAlike_readByte (hR : ReadsAlike R F) :
    EndAlike R F (ofRead Readable.readByte) (ofRead Readable.readByte) := by
  rw [ofRead_readByte, ofRead_readByte]
  exact (hR.readField 1).map _

/-- Looks up a first byte that was read at the offset. -/
def lookUp (ofByte? : UInt8 → Option α) (offset : Nat) (b : UInt8) : Reading σ α := fun s =>
  match ofByte? b with
  | some a => (.ok a, s)
  | none => (.error (.invalidByte b offset), s)

theorem readLead_eq (ofByte? : UInt8 → Option α) (s : σ) :
    readLead ofByte? s =
      (ofRead Readable.readByte >>= lookUp ofByte? (Readable.offset s) : Reading σ α) s := by
  rw [bind_def]
  unfold readLead ofRead
  rcases Readable.readByte s with ⟨_ | _, _⟩ <;> rfl

theorem endAlike_readLead (hR : ReadsAlike R F) (ofByte? : UInt8 → Option α) :
    EndAlike R F (readLead ofByte?) (readLead ofByte?) := by
  intro s t hst
  rw [readLead_eq, readLead_eq, hR.offset hst]
  refine (endAlike_readByte hR).bind (fun b s' t' hrest => ?_) s t hst
  unfold lookUp
  cases ofByte? b with
  | none => exact .error (hR.error hrest nofun)
  | some a => exact .ok hrest

theorem endAlike_readLength (hR : ReadsAlike R F) (length : LengthField) :
    EndAlike R F (readLength length) (readLength length) := by
  cases length with
  | inTag n => exact EndAlike.pure n
  | after width => exact (hR.readField width).map _

theorem endAlike_readHeader (hR : ReadsAlike R F) : EndAlike R F readHeader readHeader := by
  rw [readHeader_eq, readHeader_eq]
  refine (endAlike_readLead hR _).bind fun tag => ?_
  cases tag with
  | whole v | scalar s => exact EndAlike.pure _
  | string length | binary length | extension length | array length | object length =>
    exact (endAlike_readLength hR length).map _

theorem endAlike_readExtent (hR : ReadsAlike R F)
    (hskip : EndAlike R F (ofRead (Readable.skip 1)) (ofRead (Readable.skip 1))) :
    EndAlike R F readExtent readExtent := by
  rw [readExtent_eq, readExtent_eq]
  refine (endAlike_readLead hR _).bind fun span => ?_
  cases span with
  | fixed extent => exact EndAlike.pure extent
  | payload width | items width | pairs width => exact (endAlike_readLength hR _).map _
  | extension length => exact (endAlike_readLength hR length).bind fun n => hskip.map _

theorem endAlike_readValue (hR : ReadsAlike R F) (levels : Nat) :
    EndAlike R F (readValue levels) (readValue levels) := by
  induction levels with
  | zero =>
    intro s t hst
    have hfailed : F (.depthExceeded (Readable.offset t)) s t := hR.error hst nofun
    unfold readValue tooDeep
    rw [hR.offset hst]
    exact .error hfailed
  | succ levels ih =>
    rw [readValue_succ, readValue_succ]
    refine (endAlike_readHeader hR).bind fun header => ?_
    cases header with
    | whole v => exact EndAlike.pure v
    | scalar s => exact (hR.readField s.size).map _
    | string length | binary length => exact (hR.readPayload length).map _
    | extension length =>
      exact (endAlike_readByte hR).bind fun type => (hR.readPayload length).map _
    | array length => exact (endAlike_readItems ih length []).map _
    | object length => exact (endAlike_readEntries ih length []).map _

end

/-! ## Relations that errors keep -/

section

variable {R : σ → τ → Prop}

theorem EndAlike.ofRead {f : σ → Except ShortRead α × σ} {g : τ → Except ShortRead α × τ}
    (h : ∀ {s t}, R s t → Agree R (f s) (g t)) :
    EndAlike R (fun _ => R) (ofRead f) (ofRead g) := by
  intro s t hst
  unfold Reading.ofRead
  rcases (h hst).cases with ⟨e, s', t', hf, hg, hrest⟩ | ⟨a, s', t', hf, hg, hrest⟩ <;> rw [hf, hg]
  · exact .error hrest
  · exact .ok hrest

theorem EndAlike.matches {x : Reading σ α} {y : Reading τ α} (h : EndAlike R (fun _ => R) x y) :
    Matches R x y := by
  intro s t hst
  have hends := h s t hst
  generalize x s = a, y t = b at hends ⊢
  cases hends with
  | ok hrest | error hrest => exact ⟨rfl, hrest⟩

variable [Readable σ] [Readable τ]

theorem Simulates.readsAlike (hR : Simulates R) : ReadsAlike R fun _ => R where
  offset := hR.offset
  readField n := .ofRead (hR.readField n)
  readPayload n := .ofRead (hR.readPayload n)
  error h _ := h

theorem matches_readExtent (hR : Simulates R) : Matches R readExtent readExtent :=
  (endAlike_readExtent hR.readsAlike (.ofRead (hR.skip 1))).matches

theorem matches_readValue (hR : Simulates R) (levels : Nat) :
    Matches R (readValue levels) (readValue levels) :=
  (endAlike_readValue hR.readsAlike levels).matches

end

/-! ## Cursors -/

/-- The slice holds the bytes of the queue from the place of the cursor on. -/
def Follows (q : ByteQueue) (c : Cursor) (r : Slice) : Prop :=
  c.At q r.offset ∧ r.rest = q.toBytes.drop r.offset

theorem agree_read {q : ByteQueue} (n : Nat) {c : Cursor} {r : Slice}
    (h : Follows q c r) : Agree (Follows q) (c.read n) (r.read n) := by
  obtain ⟨hat, hrest⟩ := h
  by_cases hn : n ≤ r.rest.length
  · obtain ⟨c', hread, hat'⟩ := Cursor.read_of_le hat (hrest ▸ hn)
    rw [hread, Slice.read, splitFront_of_le hn]
    refine ⟨by rw [hrest], hat', ?_⟩
    rw [hrest, List.drop_drop]
  · rw [Slice.read, splitFront_of_lt (Nat.lt_of_not_le hn),
      Cursor.read_of_lt hat (hrest ▸ Nat.lt_of_not_le hn)]
    exact ⟨by rw [hrest], hat, hrest⟩

theorem agree_skip {q : ByteQueue} (n : Nat) {c : Cursor} {r : Slice}
    (h : Follows q c r) : Agree (Follows q) (c.skip n) (r.skip n) := by
  unfold Cursor.skip Slice.skip
  rcases (agree_read n h).cases with ⟨e, s', t', hs, ht, hrest⟩ | ⟨bs, s', t', hs, ht, hrest⟩ <;>
    rw [hs, ht] <;> exact ⟨rfl, hrest⟩

/-- A cursor behaves like the slice of the bytes from its place on. -/
theorem simulates_follows (q : ByteQueue) : Simulates (Follows q) where
  offset h := h.1.offset_eq
  readField n _ _ h := agree_read n h
  readPayload n _ _ h := agree_read n h
  skip n _ _ h := agree_skip n h

theorem follows_cursor (q : ByteQueue) : Follows q q.cursor (Slice.ofBytes q.toBytes) :=
  ⟨Cursor.at_cursor q, rfl⟩

end MessagePack
