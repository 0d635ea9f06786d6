import MessagePack.Proofs.Wire.Reading

/-!
# What steps come to while bytes arrive

A step on a byte string reads what the bytes at the front spell, fails for good, or runs out of
bytes. The first two are settled by the bytes seen so far and stay whatever comes after them. While
one of these bytes is missing, the step runs out, and the more have arrived, the later the read that
runs out begins.

* `Fails x bs e`, `Starves x bs k`: a step that fails for good, and one that runs out of bytes.
* `Outcome x bs`: one of the three, with what it says about the beginnings of the bytes.
-/

namespace MessagePack

open Reading

namespace DecodeError

@[simp] theorem shift_zero (e : DecodeError) : e.shift 0 = e := by
  cases e <;> rfl

theorem shift_shift (e : DecodeError) (m n : Nat) : (e.shift m).shift n = e.shift (m + n) := by
  cases e <;> simp [shift, Nat.add_assoc]

/-- The error shows with the last of the bytes: that byte begins no value, or the next byte would
be nested too deep. -/
def ShowsAfter (bs : Bytes) : DecodeError → Prop
  | endOfBuffer _ => False
  | invalidByte b o => b = 0xc1 ∧ ∃ before, bs = before ++ [b] ∧ before.length = o
  | depthExceeded o => bs.length = o

theorem ShowsAfter.shift {e : DecodeError} {bs : Bytes} (h : e.ShowsAfter bs) (before : Bytes) :
    (e.shift before.length).ShowsAfter (before ++ bs) := by
  cases e with
  | endOfBuffer o => cases h
  | invalidByte b o =>
    obtain ⟨hb, bs, rfl, rfl⟩ := h
    exact ⟨hb, before ++ bs, (List.append_assoc ..).symm, by rw [List.length_append, Nat.add_comm]⟩
  | depthExceeded o =>
    replace h : bs.length = o := h
    show (before ++ bs).length = o + before.length
    rw [List.length_append, h, Nat.add_comm]

end DecodeError

/-- Wherever the bytes come next, the step fails with the error, counted from there. -/
def Fails {α : Type} (x : Reading Slice α) (bs : Bytes) (e : DecodeError) : Prop :=
  ∀ rest offset, (x ⟨bs ++ rest, offset⟩).1 = .error (e.shift offset)

/-- Where the bytes are all there is, the step runs out of them in a read that begins at `k`. -/
def Starves {α : Type} (x : Reading Slice α) (bs : Bytes) (k : Nat) : Prop :=
  ∀ offset, (x ⟨bs, offset⟩).1 = .error (.endOfBuffer (k + offset))

/-- What a step on a byte string comes to. -/
inductive Outcome {α : Type} (x : Reading Slice α) (bs : Bytes) : Prop
  | reads {front rest : Bytes} {a : α} (hbs : front ++ rest = bs) (h : Reads x front a)
  | fails {front rest : Bytes} {e : DecodeError} (hbs : front ++ rest = bs) (h : Fails x front e)
      (hshows : e.ShowsAfter front)
  | starves {k : Nat} (hk : k ≤ bs.length) (h : Starves x bs k)
      (hfront : ∀ front, front <+: bs → ∃ j ≤ k, Starves x front j)

section

variable {α β : Type} {x : Reading Slice α} {f : α → Reading Slice β}

theorem bind_fst_error {s : Slice} {e : DecodeError} (h : (x s).1 = .error e) :
    ((x >>= f) s).1 = .error e := by
  have hx : x s = (.error e, (x s).2) := by rw [← h]
  rw [bind_error hx]

theorem Fails.bind {bs : Bytes} {e : DecodeError} (h : Fails x bs e) : Fails (x >>= f) bs e :=
  fun rest offset => bind_fst_error (h rest offset)

theorem Fails.of_void {bs : Bytes} {e : DecodeError} (h : Fails x.void bs e) : Fails x bs e := by
  intro rest offset
  have hvoid := h rest offset
  rw [void_apply] at hvoid
  cases hx : (x ⟨bs ++ rest, offset⟩).1 <;> rw [hx] at hvoid <;> cases hvoid
  rfl

theorem Starves.bind {bs : Bytes} {k : Nat} (h : Starves x bs k) : Starves (x >>= f) bs k :=
  fun offset => bind_fst_error (h offset)

theorem Reads.bind_fails {bs cs : Bytes} {a : α} {e : DecodeError} (hx : Reads x bs a)
    (hf : Fails (f a) cs e) : Fails (x >>= f) (bs ++ cs) (e.shift bs.length) := by
  intro rest offset
  rw [List.append_assoc, bind_ok (hx _ _), hf, DecodeError.shift_shift, Nat.add_comm]

theorem Reads.bind_starves {bs cs : Bytes} {a : α} {k : Nat} (hx : Reads x bs a)
    (hf : Starves (f a) cs k) : Starves (x >>= f) (bs ++ cs) (k + bs.length) := by
  intro offset
  rw [bind_ok (hx _ _), hf, Nat.add_assoc, Nat.add_comm offset]

/-- While one of the bytes that a step reads is missing, it runs out of bytes. -/
theorem Reads.starves_of_front (hx : ∀ bs, Outcome x bs) {front more : Bytes} {a : α}
    (h : Reads x (front ++ more) a) (hmore : more ≠ []) :
    ∃ k ≤ front.length, Starves x front k := by
  have hrun : ∀ {bs : Bytes}, bs = front ++ more → x ⟨bs, 0⟩ = (.ok a, ⟨[], 0 + bs.length⟩) := by
    rintro _ rfl
    rw [← h [] 0, List.append_nil]
  cases hx front with
  | @reads front' rest a' hbs h' =>
    have hbs' : front' ++ (rest ++ more) = front ++ more := by rw [← hbs, List.append_assoc]
    have hrest := congrArg (fun result => result.2.rest) ((h' (rest ++ more) 0).symm.trans (hrun hbs'))
    exact absurd (List.append_eq_nil_iff.1 hrest).2 hmore
  | @fails front' rest e hbs h' _ =>
    have hbs' : front' ++ (rest ++ more) = front ++ more := by rw [← hbs, List.append_assoc]
    have hresult := h' (rest ++ more) 0
    rw [hrun hbs'] at hresult
    cases hresult
  | starves hk h' _ => exact ⟨_, hk, h'⟩

/-! ## Sequences of steps -/

theorem outcome_pure (a : α) (bs : Bytes) : Outcome (pure a) bs :=
  .reads (List.nil_append bs) (Reads.pure a)

/-- When a second step runs out of bytes, the first runs out on shorter beginnings, and no later. -/
theorem outcome_bind (hx : ∀ bs, Outcome x bs) (hf : ∀ a bs, Outcome (f a) bs) (bs : Bytes) :
    Outcome (x >>= f) bs := by
  cases hx bs with
  | fails hbs h hshows => exact .fails hbs h.bind hshows
  | starves hk h hfront =>
    refine .starves hk h.bind fun front hprefix => ?_
    obtain ⟨j, hj, hstarves⟩ := hfront front hprefix
    exact ⟨j, hj, hstarves.bind⟩
  | @reads front rest a hbs h =>
    subst hbs
    cases hf a rest with
    | reads hrest h' =>
      subst hrest
      exact .reads (List.append_assoc ..) (h.bind h')
    | fails hrest h' hshows =>
      subst hrest
      exact .fails (List.append_assoc ..) (h.bind_fails h') (hshows.shift front)
    | @starves k hk h' hfront =>
      refine .starves ?_ (h.bind_starves h') fun before hbefore => ?_
      · rw [List.length_append]
        omega
      · -- A beginning has all that the first step reads, or the first step runs out on it.
        by_cases hlong : front <+: before
        · obtain ⟨cs, rfl⟩ := hlong
          obtain ⟨j, hj, hstarves⟩ := hfront cs ((List.prefix_append_right_inj front).1 hbefore)
          exact ⟨j + front.length, by omega, h.bind_starves hstarves⟩
        · obtain ⟨more, hmore⟩ : before <+: front :=
            (List.prefix_or_prefix_of_prefix hbefore (List.prefix_append front rest)).resolve_right
              hlong
          have hne : more ≠ [] := by
            rintro rfl
            rw [List.append_nil] at hmore
            exact hlong (hmore ▸ List.prefix_rfl)
          subst hmore
          obtain ⟨j, hj, hstarves⟩ := h.starves_of_front hx hne
          refine ⟨j, ?_, hstarves.bind⟩
          rw [List.length_append]
          omega

theorem outcome_map (hx : ∀ bs, Outcome x bs) (g : α → β) (bs : Bytes) :
    Outcome (x >>= fun a => pure (g a)) bs :=
  outcome_bind hx (fun a => outcome_pure (g a)) bs

/-- A step with an outcome everywhere is local. -/
theorem local_of_outcome (hx : ∀ bs, Outcome x bs) : Local x := by
  rintro ⟨bs, offset⟩ a r' hr
  cases hx bs with
  | reads hbs h =>
    subst hbs
    obtain ⟨⟨⟩, rfl⟩ := Prod.mk.inj (hr.symm.trans (h _ offset))
    exact ⟨_, rfl, h⟩
  | @fails front rest e hbs h _ =>
    subst hbs
    have hresult := h rest offset
    rw [hr] at hresult
    cases hresult
  | starves _ h _ =>
    have hresult := h offset
    rw [hr] at hresult
    cases hresult

end

/-! ## Decoding steps -/

theorem outcome_readField (n : Nat) (bs : Bytes) : Outcome (ofRead (Readable.readField n)) bs := by
  by_cases hn : n ≤ bs.length
  · exact .reads (List.take_append_drop n bs) (Reads.readField (List.length_take_of_le hn))
  · have hstarves : ∀ front, front <+: bs → Starves (ofRead (Readable.readField n)) front 0 := by
      intro front hprefix offset
      have hlt : front.length < n := Nat.lt_of_le_of_lt hprefix.length_le (Nat.lt_of_not_le hn)
      simp [ofRead, Readable.readField, Slice.read, splitFront_of_lt hlt]
    exact .starves (Nat.zero_le _) (hstarves bs List.prefix_rfl) fun front hprefix =>
      ⟨0, Nat.le_refl 0, hstarves front hprefix⟩

theorem outcome_readPayload (n : Nat) (bs : Bytes) :
    Outcome (ofRead (Readable.readPayload n)) bs := outcome_readField n bs

theorem starves_of_nil {α : Type} {x : Reading Slice α} (h : Starves x [] 0) : Outcome x [] := by
  refine .starves (Nat.le_refl 0) h fun front hprefix => ⟨0, Nat.le_refl 0, ?_⟩
  rw [List.prefix_nil.1 hprefix]
  exact h

theorem outcome_readByte (bs : Bytes) : Outcome (ofRead Readable.readByte) bs := by
  cases bs with
  | nil => exact starves_of_nil fun offset => by rw [Nat.zero_add]; rfl
  | cons b bs => exact .reads rfl (Reads.readByte b)

/-- Only one byte begins no value. -/
theorem Tag.eq_of_ofByte?_eq_none {b : UInt8} (h : Tag.ofByte? b = none) : b = 0xc1 := by
  have hall : ∀ b, (Tag.ofByte? b).isNone → b = 0xc1 := forall_byte (by decide +kernel)
  exact hall b (Option.isNone_iff_eq_none.2 h)

theorem outcome_readLead (bs : Bytes) : Outcome (readLead Tag.ofByte?) bs := by
  cases bs with
  | nil => exact starves_of_nil fun offset => by rw [Nat.zero_add]; rfl
  | cons b bs =>
    cases hb : Tag.ofByte? b with
    | some tag => exact .reads rfl (Reads.readLead hb)
    | none =>
      have hfails : Fails (readLead Tag.ofByte?) [b] (.invalidByte b 0) := by
        intro rest offset
        simp [readLead, Readable.readByte, Readable.readField, Slice.read, splitFront, hb,
          DecodeError.shift, Readable.offset]
      exact .fails rfl hfails ⟨Tag.eq_of_ofByte?_eq_none hb, [], rfl, rfl⟩

theorem outcome_readLength (length : LengthField) (bs : Bytes) :
    Outcome (readLength length) bs := by
  cases length with
  | inTag n => exact outcome_pure n bs
  | after width => exact outcome_map (outcome_readField width) ofBigEndian bs

theorem outcome_readHeader (bs : Bytes) : Outcome readHeader bs := by
  rw [readHeader_eq]
  refine outcome_bind outcome_readLead (fun tag => ?_) bs
  cases tag with
  | whole v | scalar s => exact outcome_pure _
  | string length | binary length | extension length | array length | object length =>
    exact outcome_map (outcome_readLength length) _

section

variable {item : Reading Slice Value} (hitem : ∀ bs, Outcome item bs)

include hitem

theorem outcome_readItems (n : Nat) (seen : List Value) (bs : Bytes) :
    Outcome (readItems item n seen) bs := by
  induction n generalizing seen bs with
  | zero => exact outcome_pure _ bs
  | succ n ih =>
    rw [readItems_succ]
    exact outcome_bind hitem (fun v => ih (v :: seen)) bs

theorem outcome_readEntries (n : Nat) (entries : List (Value × Value)) (bs : Bytes) :
    Outcome (readEntries item n entries) bs := by
  induction n generalizing entries bs with
  | zero => exact outcome_pure _ bs
  | succ n ih =>
    rw [readEntries_succ]
    exact outcome_bind hitem (fun k => outcome_bind hitem fun v => ih _) bs

theorem outcome_readBody (header : Header) (bs : Bytes) : Outcome (readBody item header) bs := by
  cases header with
  | whole v => exact outcome_pure v bs
  | scalar s => exact outcome_map (outcome_readField s.size) _ bs
  | string length | binary length => exact outcome_map (outcome_readPayload length) _ bs
  | extension length =>
    exact outcome_bind outcome_readByte (fun type => outcome_map (outcome_readPayload length) _) bs
  | array length => exact outcome_map (outcome_readItems hitem length []) _ bs
  | object length => exact outcome_map (outcome_readEntries hitem length []) _ bs

end

/-- A value is read, fails for good, or is not all there. -/
theorem outcome_readValue (levels : Nat) (bs : Bytes) : Outcome (readValue levels) bs := by
  induction levels generalizing bs with
  | zero =>
    have hfails : Fails (readValue 0) [] (.depthExceeded 0) := fun rest offset => by
      simp [readValue, tooDeep, DecodeError.shift, Readable.offset]
    exact .fails (List.nil_append bs) hfails rfl
  | succ levels ih =>
    rw [readValue_succ]
    exact outcome_bind outcome_readHeader (outcome_readBody ih) bs

end MessagePack
