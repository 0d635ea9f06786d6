import MessagePack.Proofs.Wire.Deepening
import MessagePack.Proofs.Wire.Header
import MessagePack.Proofs.Wire.Incremental

/-!
# Completing truncated values

Where decoding finds that bytes are missing, bytes can come with which the value is complete. A
field that broke off is filled up with zeros, a payload too, and for every child that is still due a
nil comes. The children of the last header lie one level deeper than anything that was read, so they
may need one level more than decoding had.

* `Completes x y`: where `x` runs out of bytes, bytes can come with which `y` reads to the end.
* `Viable`, `viable_of_endOfBuffer`: byte strings, and what waits in an incremental decoder.
-/

namespace MessagePack

open Reading

variable {α β : Type}

/-- Some bytes spell a result of the step. -/
def Finishable (y : Reading Slice α) : Prop := ∃ bs a, Reads y bs a

/-- Where the first step runs out of bytes, bytes can come with which the other reads to the end. -/
def Completes (x y : Reading Slice α) : Prop :=
  ∀ bs k, Starves x bs k → ∃ more a, Reads y (bs ++ more) a

/-! ## Sequences of steps -/

namespace Finishable

variable {y : Reading Slice α} {g : α → Reading Slice β}

protected theorem pure (a : α) : Finishable (pure a) := ⟨[], a, Reads.pure a⟩

protected theorem bind (h : Finishable y) (hg : ∀ a, Finishable (g a)) : Finishable (y >>= g) := by
  obtain ⟨bs, a, hreads⟩ := h
  obtain ⟨cs, b, hreads'⟩ := hg a
  exact ⟨bs ++ cs, b, hreads.bind hreads'⟩

protected theorem map (h : Finishable y) (f : α → β) :
    Finishable (y >>= fun a => Pure.pure (f a)) :=
  h.bind fun a => Finishable.pure (f a)

end Finishable

section

variable {x : Reading Slice α} {f : α → Reading Slice β}

/-- A step that reads does not run out. -/
theorem Reads.not_starves {front rest : Bytes} {a : α} {k : Nat} (h : Reads x front a) :
    ¬ Starves x (front ++ rest) k := by
  intro hstarves
  have hresult := hstarves 0
  rw [h rest 0] at hresult
  cases hresult

/-- When two steps run out of bytes, the first has, or it has read and the second has. -/
theorem Starves.of_bind (hx : ∀ bs, Outcome x bs) (hf : ∀ a bs, Outcome (f a) bs) {bs : Bytes}
    {k : Nat} (h : Starves (x >>= f) bs k) :
    (∃ j, Starves x bs j) ∨
      ∃ front rest a j, bs = front ++ rest ∧ Reads x front a ∧ Starves (f a) rest j := by
  cases hx bs with
  | starves _ hstarves _ => exact .inl ⟨_, hstarves⟩
  | @fails front rest e hbs hfails hshows =>
    subst hbs
    have hresult := (hfails.bind (f := f)) rest 0
    rw [h 0, DecodeError.shift_zero] at hresult
    cases hresult
    cases hshows
  | @reads front rest a hbs hreads =>
    subst hbs
    -- The second step alone decides how the sequence ends.
    have hrest : (f a ⟨rest, 0 + front.length⟩).1 = .error (.endOfBuffer (k + 0)) := by
      rw [← h 0, bind_ok (hreads rest 0)]
    cases hf a rest with
    | starves _ hstarves _ => exact .inr ⟨front, rest, a, _, rfl, hreads, hstarves⟩
    | @reads front' rest' b hbs hreads' =>
      subst hbs
      rw [hreads' rest' _] at hrest
      cases hrest
    | @fails front' rest' e hbs hfails hshows =>
      subst hbs
      rw [hfails rest' _] at hrest
      cases e <;> cases hrest
      cases hshows

end

/-- What a step reads it reads with more levels. -/
theorem Deepens.reads {x y : Reading Slice α} (h : Deepens x y) {front : Bytes} {a : α}
    (hreads : Reads x front a) : Reads y front a := by
  intro rest offset
  rcases h ⟨front ++ rest, offset⟩ with hsame | ⟨o, hdeep, -⟩
  · rw [← hsame, hreads]
  · rw [hreads] at hdeep
    cases hdeep

namespace Completes

variable {x y : Reading Slice α} {f g : α → Reading Slice β}

protected theorem pure (a : α) (y : Reading Slice α) : Completes (pure a) y := by
  intro bs k hstarves
  exact absurd hstarves (Reads.pure a).not_starves

/-- What the first step of a sequence has read it reads the same with more levels. Where it runs out
it is completed, and some bytes follow that the second step reads. -/
protected theorem bind (h : Completes x y) (hdeepens : Deepens x y) (hx : ∀ bs, Outcome x bs)
    (hf : ∀ a bs, Outcome (f a) bs) (hfg : ∀ a, Completes (f a) (g a))
    (hg : ∀ a, Finishable (g a)) : Completes (x >>= f) (y >>= g) := by
  intro bs k hstarves
  rcases hstarves.of_bind hx hf with ⟨j, hfirst⟩ | ⟨front, rest, a, j, rfl, hreads, hrest⟩
  · obtain ⟨more, a, hreads⟩ := h bs j hfirst
    obtain ⟨cs, b, hreads'⟩ := hg a
    refine ⟨more ++ cs, b, ?_⟩
    rw [← List.append_assoc]
    exact hreads.bind hreads'
  · obtain ⟨more, b, hreads'⟩ := hfg a rest j hrest
    refine ⟨more, b, ?_⟩
    rw [List.append_assoc]
    exact (hdeepens.reads hreads).bind hreads'

protected theorem map (h : Completes x y) (hdeepens : Deepens x y) (hx : ∀ bs, Outcome x bs)
    (f : α → β) :
    Completes (x >>= fun a => Pure.pure (f a)) (y >>= fun a => Pure.pure (f a)) :=
  h.bind hdeepens hx (fun a => outcome_pure (f a)) (fun a => Completes.pure (f a) _)
    fun a => Finishable.pure (f a)

end Completes

/-! ## Fields -/

theorem finishable_readField (n : Nat) : Finishable (ofRead (Readable.readField n)) :=
  ⟨List.replicate n 0, _, Reads.readField List.length_replicate⟩

theorem finishable_readPayload (n : Nat) : Finishable (ofRead (Readable.readPayload n)) :=
  finishable_readField n

theorem finishable_readByte : Finishable (ofRead Readable.readByte) :=
  ⟨[0], 0, Reads.readByte 0⟩

theorem finishable_readLength (length : LengthField) : Finishable (readLength length) := by
  cases length with
  | inTag n => exact Finishable.pure n
  | after width => exact (finishable_readField width).map ofBigEndian

theorem finishable_readHeaderOf (tag : Tag) : Finishable (readHeaderOf tag) := by
  cases tag with
  | whole v | scalar s => exact Finishable.pure _
  | string length | binary length | extension length | array length | object length =>
    exact (finishable_readLength length).map _

/-- A field that broke off is filled up with zeros. -/
theorem completes_readField (n : Nat) :
    Completes (ofRead (Readable.readField n)) (ofRead (Readable.readField n)) := by
  intro bs k hstarves
  have hlt : bs.length < n := by
    refine Nat.lt_of_not_le fun hle => ?_
    rw [← List.take_append_drop n bs] at hstarves
    exact (Reads.readField (List.length_take_of_le hle)).not_starves hstarves
  refine ⟨List.replicate (n - bs.length) 0, _, Reads.readField ?_⟩
  rw [List.length_append, List.length_replicate]
  omega

theorem completes_readPayload (n : Nat) :
    Completes (ofRead (Readable.readPayload n)) (ofRead (Readable.readPayload n)) :=
  completes_readField n

theorem completes_readByte :
    Completes (ofRead Readable.readByte) (ofRead Readable.readByte) := by
  intro bs k hstarves
  cases bs with
  | nil => exact ⟨[0], 0, Reads.readByte 0⟩
  | cons b bs => exact absurd hstarves (Reads.readByte b).not_starves

theorem completes_readLead : Completes (readLead Tag.ofByte?) (readLead Tag.ofByte?) := by
  intro bs k hstarves
  cases bs with
  | nil => exact ⟨[0xc0], .whole .nil, Reads.readLead rfl⟩
  | cons b bs =>
    have hresult := hstarves 0
    cases hb : Tag.ofByte? b <;>
      simp [readLead, Readable.readByte, Readable.readField, Slice.read, splitFront, hb] at hresult

theorem completes_readLength (length : LengthField) :
    Completes (readLength length) (readLength length) := by
  cases length with
  | inTag n => exact Completes.pure n _
  | after width => exact (completes_readField width).map (.refl _) (outcome_readField width) _

theorem outcome_readHeaderOf (tag : Tag) (bs : Bytes) : Outcome (readHeaderOf tag) bs := by
  cases tag with
  | whole v | scalar s => exact outcome_pure _ bs
  | string length | binary length | extension length | array length | object length =>
    exact outcome_map (outcome_readLength length) _ bs

theorem completes_readHeaderOf (tag : Tag) : Completes (readHeaderOf tag) (readHeaderOf tag) := by
  cases tag with
  | whole v | scalar s => exact Completes.pure _ _
  | string length | binary length | extension length | array length | object length =>
    exact (completes_readLength length).map (.refl _) (outcome_readLength length) _

theorem completes_readHeader : Completes readHeader readHeader := by
  rw [readHeader_eq]
  exact completes_readLead.bind (.refl _) outcome_readLead outcome_readHeaderOf
    completes_readHeaderOf finishable_readHeaderOf

/-! ## Values -/

section

variable {item : Reading Slice Value} (hitem : Finishable item)

include hitem

theorem finishable_readItems (n : Nat) (seen : List Value) :
    Finishable (readItems item n seen) := by
  induction n generalizing seen with
  | zero => exact Finishable.pure _
  | succ n ih =>
    rw [readItems_succ]
    exact hitem.bind fun v => ih (v :: seen)

theorem finishable_readEntries (n : Nat) (entries : List (Value × Value)) :
    Finishable (readEntries item n entries) := by
  induction n generalizing entries with
  | zero => exact Finishable.pure _
  | succ n ih =>
    rw [readEntries_succ]
    exact hitem.bind fun k => hitem.bind fun v => ih _

theorem finishable_readBody (header : Header) : Finishable (readBody item header) := by
  cases header with
  | whole v => exact Finishable.pure v
  | scalar s => exact (finishable_readField s.size).map _
  | string length | binary length => exact (finishable_readPayload length).map _
  | extension length =>
    exact finishable_readByte.bind fun type => (finishable_readPayload length).map _
  | array length => exact (finishable_readItems hitem length []).map _
  | object length => exact (finishable_readEntries hitem length []).map _

end

/-- A nil comes where a value is due. -/
theorem finishable_readValue (levels : Nat) : Finishable (readValue (levels + 1)) :=
  ⟨[0xc0], .nil, Reads.whole rfl⟩

section

variable {item item' : Reading Slice Value} (h : Completes item item')
  (hdeepens : Deepens item item') (hitem : ∀ bs, Outcome item bs) (hfinishable : Finishable item')

include h hdeepens hitem hfinishable

theorem completes_readItems (n : Nat) (seen : List Value) :
    Completes (readItems item n seen) (readItems item' n seen) := by
  induction n generalizing seen with
  | zero => exact Completes.pure _ _
  | succ n ih =>
    rw [readItems_succ, readItems_succ]
    exact h.bind hdeepens hitem (fun v => outcome_readItems hitem n _) (fun v => ih (v :: seen))
      fun v => finishable_readItems hfinishable n _

theorem completes_readEntries (n : Nat) (entries : List (Value × Value)) :
    Completes (readEntries item n entries) (readEntries item' n entries) := by
  induction n generalizing entries with
  | zero => exact Completes.pure _ _
  | succ n ih =>
    rw [readEntries_succ, readEntries_succ]
    refine h.bind hdeepens hitem (fun k => ?_) (fun k => ?_) fun k => ?_
    · exact outcome_bind hitem fun v => outcome_readEntries hitem n _
    · -- A key without its value is completed by one.
      exact h.bind hdeepens hitem (fun v => outcome_readEntries hitem n _) (fun v => ih _)
        fun v => finishable_readEntries hfinishable n _
    · exact hfinishable.bind fun v => finishable_readEntries hfinishable n _

theorem completes_readBody (hitem' : ∀ bs, Outcome item' bs) (header : Header) :
    Completes (readBody item header) (readBody item' header) := by
  cases header with
  | whole v => exact Completes.pure v _
  | scalar s => exact (completes_readField s.size).map (.refl _) (outcome_readField s.size) _
  | string length | binary length =>
    exact (completes_readPayload length).map (.refl _) (outcome_readPayload length) _
  | extension length =>
    exact completes_readByte.bind (.refl _) outcome_readByte
      (fun type => outcome_map (outcome_readPayload length) _)
      (fun type => (completes_readPayload length).map (.refl _) (outcome_readPayload length) _)
      fun type => (finishable_readPayload length).map _
  | array length =>
    exact (completes_readItems h hdeepens hitem hfinishable length []).map
      (deepens_readItems hdeepens hitem' length []) (outcome_readItems hitem length []) _
  | object length =>
    exact (completes_readEntries h hdeepens hitem hfinishable length []).map
      (deepens_readEntries hdeepens hitem' length []) (outcome_readEntries hitem length []) _

end

/-- A value that broke off can be completed with one level more. -/
theorem completes_readValue (levels : Nat) :
    Completes (readValue levels) (readValue (levels + 1)) := by
  induction levels with
  | zero =>
    -- Without a level no byte is read.
    intro bs k hstarves
    cases hstarves 0
  | succ levels ih =>
    rw [readValue_succ, readValue_succ (levels + 1)]
    exact completes_readHeader.bind (.refl _) outcome_readHeader
      (outcome_readBody (outcome_readValue levels))
      (completes_readBody ih (deepens_readValue (Nat.le_succ levels)) (outcome_readValue levels)
        (finishable_readValue levels) (outcome_readValue (levels + 1)))
      (finishable_readBody (finishable_readValue levels))

/-! ## Byte strings -/

/-- With more bytes, and no fewer than one, the byte string is a value to its last byte. -/
def Viable (maxDepth : Nat) (bs : Bytes) : Prop :=
  ∃ more v, more ≠ [] ∧ decode maxDepth (bs ++ more) = .ok (v, (bs ++ more).length)

theorem starves_of_decode {maxDepth o : Nat} {bs : Bytes}
    (h : decode maxDepth bs = .error (.endOfBuffer o)) : ∃ k, Starves (readAny maxDepth) bs k := by
  cases outcome_readValue (maxDepth + 1) bs with
  | reads hbs hreads =>
    subst hbs
    cases (decode_of_reads hreads _).symm.trans h
  | fails hbs hfails hshows =>
    subst hbs
    cases (decode_of_fails hfails _).symm.trans h
    cases hshows
  | starves _ hstarves _ => exact ⟨_, hstarves⟩

theorem viable_of_decode {maxDepth o : Nat} {bs : Bytes}
    (h : decode maxDepth bs = .error (.endOfBuffer o)) : Viable (maxDepth + 1) bs := by
  obtain ⟨k, hstarves⟩ := starves_of_decode h
  obtain ⟨more, v, hreads⟩ := completes_readValue (maxDepth + 1) bs k hstarves
  have hdecode : decode (maxDepth + 1) (bs ++ more) = .ok (v, (bs ++ more).length) := by
    simpa using decode_of_reads hreads []
  refine ⟨more, v, ?_, hdecode⟩
  -- The bytes alone are as short under the greater bound.
  rintro rfl
  rw [List.append_nil] at hdecode
  rcases decode_of_deepens (Nat.le_succ maxDepth) bs with hsame | ⟨o', hdeep, -⟩
  · cases (hdecode.symm.trans hsame).trans h
  · cases hdeep.symm.trans h

/-- Where decoding finds that bytes are missing, one byte or more can come with which all of it is a
value under a bound greater by one. So an incremental decoder that answers with nothing does not
wait behind bytes that are no beginning of a value. -/
theorem viable_of_endOfBuffer (maxDepth : Nat) :
    (∀ (bs : Bytes) (o : Nat), decode maxDepth bs = .error (.endOfBuffer o) →
      Viable (maxDepth + 1) bs) ∧
    (∀ calls : List IncrementalDecoder.Call,
      (IncrementalDecoder.after maxDepth calls).next.1 = .ok none →
        Viable (maxDepth + 1) (IncrementalDecoder.after maxDepth calls).waiting) := by
  refine ⟨fun bs o => viable_of_decode, fun calls hnext => ?_⟩
  have h := IncrementalDecoder.tracks_after maxDepth calls
  generalize IncrementalDecoder.after maxDepth calls = d at h hnext ⊢
  rcases hdecode : decode maxDepth d.waiting with e | ⟨v, n⟩
  · cases e with
    | endOfBuffer o => exact viable_of_decode hdecode
    | invalidByte b o | depthExceeded o =>
      rw [← h.maxDepth_eq] at hdecode
      obtain ⟨_, hfailure, -⟩ := IncrementalDecoder.next_of_failure h.good hdecode
      rw [hfailure] at hnext
      cases hnext
  · rw [← h.maxDepth_eq] at hdecode
    obtain ⟨-, d', hvalue, -⟩ := IncrementalDecoder.next_of_ok h.good hdecode
    rw [hvalue] at hnext
    cases hnext

/-- The level more can be needed: an array whose length broke off after its first byte has 256 items
at least, and each of them is nested too deep under the bound that found the bytes missing. -/
theorem not_viable_of_length : ¬ Viable 0 [0xdc, 0x01] := by
  rintro ⟨_ | ⟨b, more⟩, v, hne, hdecode⟩
  · exact hne rfl
  · have hlength : ofBigEndian [0x01, b] = b.toNat + 255 + 1 := by
      simp [ofBigEndian]
      omega
    have hheader : Reads readHeader [0xdc, 0x01, b] (.array (ofBigEndian [0x01, b])) := by
      have hannounces : Announces 0xdc [0x01, b].length Header.array := ⟨_, rfl, rfl⟩
      have hreads := Reads.header_of_marker hannounces (ofBigEndian_lt [0x01, b])
      rwa [bigEndian_ofBigEndian] at hreads
    have hdeep : ((readAny 0).run (Slice.ofBytes ([0xdc, 0x01] ++ b :: more))).1 =
        .error (.depthExceeded 3) := by
      have hbody := bind_ok (hheader more 0) (readBody (readValue 0))
      rw [hlength, ← readValue_succ] at hbody
      exact congrArg Prod.fst hbody
    cases (decode_of_error hdeep).symm.trans hdecode

theorem viable_of_endOfBuffer_length :
    decode 0 [0xdc, 0x01] = .error (.endOfBuffer 1) ∧ ¬ Viable 0 [0xdc, 0x01] ∧
      Viable 1 [0xdc, 0x01] :=
  ⟨rfl, not_viable_of_length, (viable_of_endOfBuffer 0).1 _ 1 rfl⟩

end MessagePack
