import MessagePack.Wire.Decode

/-!
# Laws of decoding steps

Steps form a monad, so that decoders can be rewritten: loops as sequences of steps, and the decoder
of a value as that of its header followed by that of its body. On byte strings they are local: what
a step returns depends only on the bytes that it takes, whatever comes after them and however many
came before.

* `Reads x bs a`: wherever `bs` comes next, `x` takes exactly these bytes and returns `a`.
* `Local x`: whenever `x` succeeds, it reads what it returns.
-/

namespace MessagePack

namespace Reading

variable {σ α β : Type}

theorem bind_def (x : Reading σ α) (f : α → Reading σ β) (s : σ) :
    (x >>= f) s =
      match x s with
      | (.ok a, s) => f a s
      | (.error e, s) => (.error e, s) := rfl

theorem pure_def (a : α) (s : σ) : (pure a : Reading σ α) s = (.ok a, s) := rfl

theorem bind_ok {x : Reading σ α} {s s' : σ} {a : α} (h : x s = (.ok a, s'))
    (f : α → Reading σ β) : (x >>= f) s = f a s' := by
  rw [bind_def, h]

theorem bind_error {x : Reading σ α} {s s' : σ} {e : DecodeError} (h : x s = (.error e, s'))
    (f : α → Reading σ β) : (x >>= f) s = (.error e, s') := by
  rw [bind_def, h]

theorem ofRead_ok {f : σ → Except ShortRead α × σ} {s s' : σ} {a : α} (h : f s = (.ok a, s')) :
    ofRead f s = (.ok a, s') := by
  rw [ofRead, h]

theorem ofRead_error {f : σ → Except ShortRead α × σ} {s s' : σ} {e : ShortRead}
    (h : f s = (.error e, s')) : ofRead f s = (.error (.endOfBuffer e.offset), s') := by
  rw [ofRead, h]

theorem of_ofRead_ok {f : σ → Except ShortRead α × σ} {s s' : σ} {a : α}
    (h : ofRead f s = (.ok a, s')) : f s = (.ok a, s') := by
  unfold ofRead at h
  split at h <;> cases h
  assumption

/-- The first step of a sequence that succeeds. -/
theorem of_bind_ok {x : Reading σ α} {f : α → Reading σ β} {s s'' : σ} {b : β}
    (h : (x >>= f) s = (.ok b, s'')) : ∃ a s', x s = (.ok a, s') ∧ f a s' = (.ok b, s'') := by
  rw [bind_def] at h
  split at h
  · exact ⟨_, _, ‹_›, h⟩
  · cases h

instance : LawfulMonad (Reading σ) := by
  refine LawfulMonad.mk' (Reading σ) ?_ (fun _ _ => rfl) ?_
  · intro α x
    funext s
    show Reading.bind x pure s = x s
    unfold Reading.bind
    rcases x s with ⟨_ | _, _⟩ <;> rfl
  · intro α β γ x f g
    funext s
    show Reading.bind (Reading.bind x f) g s = Reading.bind x (fun a => Reading.bind (f a) g) s
    unfold Reading.bind
    rcases x s with ⟨_ | _, _⟩ <;> rfl

/-- A step whose result is forgotten. -/
def void (x : Reading σ α) : Reading σ Unit := x >>= fun _ => pure ()

theorem void_bind (x : Reading σ α) (f : α → Reading σ β) :
    (x >>= f).void = x >>= fun a => (f a).void := bind_assoc _ _ _

@[simp] theorem void_pure (a : α) : (pure a : Reading σ α).void = pure () := pure_bind _ _

theorem void_then (x : Reading σ α) (y : Reading σ β) :
    (x.void >>= fun _ => y) = x >>= fun _ => y := by
  simp only [void, bind_assoc, pure_bind]

theorem void_apply (x : Reading σ α) (s : σ) :
    x.void s = ((x s).1.map fun _ => (), (x s).2) := by
  rw [void, bind_def]
  rcases x s with ⟨_ | _, _⟩ <;> rfl

end Reading

/-! ## Loops as sequences of steps -/

section

variable {σ : Type} (item : Reading σ Value) (skipped : Reading σ Unit)

theorem readItems_succ (n : Nat) (seen : List Value) :
    readItems item (n + 1) seen = item >>= fun v => readItems item n (v :: seen) := by
  funext s
  rw [readItems, Reading.bind_def]
  rcases item s with ⟨_ | _, _⟩ <;> rfl

theorem readEntries_succ (n : Nat) (entries : List (Value × Value)) :
    readEntries item (n + 1) entries = item >>= fun k => item >>= fun v =>
      readEntries item n (SortedEntries.insertDescending Value.cmp k v entries) := by
  funext s
  simp only [readEntries, Reading.bind_def]
  rcases item s with ⟨_ | k, s'⟩
  · rfl
  · simp only
    rcases item s' with ⟨_ | _, _⟩ <;> rfl

theorem skipItems_zero : skipItems skipped 0 = pure () := rfl

theorem skipItems_succ (n : Nat) :
    skipItems skipped (n + 1) = skipped >>= fun _ => skipItems skipped n := by
  funext s
  rw [skipItems, Reading.bind_def]
  rcases skipped s with ⟨_ | _, _⟩ <;> rfl

end

/-! ## Headers and bodies -/

/-- The rest of a header after its tag. -/
def readHeaderOf {σ : Type} [Readable σ] : Tag → Reading σ Header
  | .whole v => pure (.whole v)
  | .scalar s => pure (.scalar s)
  | .string length => do pure (.string (← readLength length))
  | .binary length => do pure (.binary (← readLength length))
  | .extension length => do pure (.extension (← readLength length))
  | .array length => do pure (.array (← readLength length))
  | .object length => do pure (.object (← readLength length))

/-- The rest of an extent after the span of its first byte. -/
def readExtentOf {σ : Type} [Readable σ] : Span → Reading σ Extent
  | .fixed extent => pure extent
  | .payload width => do pure ⟨← readLength (.after width), 0⟩
  | .extension length => do
    let n ← readLength length
    Reading.ofRead (Readable.skip 1)
    pure ⟨n, 0⟩
  | .items width => do pure ⟨0, ← readLength (.after width)⟩
  | .pairs width => do pure ⟨0, 2 * (← readLength (.after width))⟩

/-- The rest of a value after its header. -/
def readBody {σ : Type} [Readable σ] (item : Reading σ Value) : Header → Reading σ Value
  | .whole v => pure v
  | .scalar s => do pure (s.value (← Reading.ofRead (Readable.readField s.size)))
  | .string length => do pure (.string (← Reading.ofRead (Readable.readPayload length)))
  | .binary length => do pure (.binary (← Reading.ofRead (Readable.readPayload length)))
  | .extension length => do
    let type ← Reading.ofRead Readable.readByte
    pure (.extension type.toInt8 (← Reading.ofRead (Readable.readPayload length)))
  | .array length => do pure (.array (← readItems item length []))
  | .object length => do pure (.object (← readEntries item length []))

section

variable {σ : Type} [Readable σ]

theorem readHeader_eq : (readHeader : Reading σ Header) = readLead Tag.ofByte? >>= readHeaderOf := by
  unfold readHeader
  refine bind_congr fun tag => ?_
  cases tag <;> rfl

theorem readExtent_eq : (readExtent : Reading σ Extent) = readLead Span.ofByte? >>= readExtentOf := by
  unfold readExtent
  refine bind_congr fun span => ?_
  cases span <;> rfl

theorem readValue_succ (levels : Nat) :
    (readValue (levels + 1) : Reading σ Value) = readHeader >>= readBody (readValue levels) := by
  rw [readValue]
  refine bind_congr fun header => ?_
  cases header <;> rfl

end

open Reading

/-- Wherever the bytes come next, the step takes exactly these and returns the result. -/
def Reads {α : Type} (x : Reading Slice α) (bs : Bytes) (a : α) : Prop :=
  ∀ rest offset, x ⟨bs ++ rest, offset⟩ = (.ok a, ⟨rest, offset + bs.length⟩)

/-- Whenever the step succeeds, it reads what it returns. -/
def Local {α : Type} (x : Reading Slice α) : Prop :=
  ∀ r a r', x r = (.ok a, r') → ∃ bs, r.rest = bs ++ r'.rest ∧ Reads x bs a

namespace Reads

variable {α β : Type} {x : Reading Slice α} {f : α → Reading Slice β}

protected theorem pure (a : α) : Reads (pure a) [] a := fun _ _ => rfl

protected theorem bind {bs cs : Bytes} {a : α} {b : β} (hx : Reads x bs a) (hf : Reads (f a) cs b) :
    Reads (x >>= f) (bs ++ cs) b := by
  intro rest offset
  rw [List.append_assoc, Reading.bind_ok (hx _ _), hf]
  simp only [List.length_append, Nat.add_assoc]

protected theorem map {bs : Bytes} {a : α} (hx : Reads x bs a) (g : α → β) :
    Reads (x >>= fun a => pure (g a)) bs (g a) := by
  have h := hx.bind (f := fun a => pure (g a)) (Reads.pure (g a))
  rwa [List.append_nil] at h

/-- The bytes determine the result. -/
theorem unique {bs : Bytes} {a a' : α} (h : Reads x bs a) (h' : Reads x bs a') : a = a' :=
  Except.ok.inj (Prod.mk.inj ((h [] 0).symm.trans (h' [] 0))).1

end Reads

namespace Local

variable {α β : Type} {x : Reading Slice α} {f : α → Reading Slice β}

protected theorem pure (a : α) : Local (pure a) := by
  rintro r _ _ ⟨⟩
  exact ⟨[], rfl, Reads.pure a⟩

protected theorem bind (hx : Local x) (hf : ∀ a, Local (f a)) : Local (x >>= f) := by
  intro r b r'' h
  obtain ⟨a, r', hr, hr'⟩ := Reading.of_bind_ok h
  obtain ⟨bs, hbs, hreads⟩ := hx r a r' hr
  obtain ⟨cs, hcs, hreads'⟩ := hf a r' b r'' hr'
  exact ⟨bs ++ cs, by rw [hbs, hcs, List.append_assoc], hreads.bind hreads'⟩

protected theorem map (hx : Local x) (g : α → β) : Local (x >>= fun a => Pure.pure (g a)) :=
  hx.bind fun a => Local.pure (g a)

/-- Where a step leaves off after a success. -/
theorem offset_eq (hx : Local x) {r r' : Slice} {a : α} (h : x r = (.ok a, r')) :
    ∃ bs, r.rest = bs ++ r'.rest ∧ r'.offset = r.offset + bs.length ∧ Reads x bs a := by
  obtain ⟨bs, hbs, hreads⟩ := hx r a r' h
  have hrun : x r = (.ok a, ⟨r'.rest, r.offset + bs.length⟩) := by
    rw [← hreads r'.rest r.offset, ← hbs]
  have heq := (Prod.mk.inj (h.symm.trans hrun)).2
  exact ⟨bs, hbs, congrArg Slice.offset heq, hreads⟩

/-- A step that succeeds does the same when bytes come. -/
theorem append (hx : Local x) {r r' : Slice} {a : α} (h : x r = (.ok a, r')) (more : Bytes) :
    x ⟨r.rest ++ more, r.offset⟩ = (.ok a, ⟨r'.rest ++ more, r'.offset⟩) := by
  obtain ⟨front, hfront, hoffset, hreads⟩ := hx.offset_eq h
  rw [hfront, hoffset, List.append_assoc]
  exact hreads _ _

end Local

/-! ## Fields -/

namespace Reads

theorem readField {bs : Bytes} {n : Nat} (h : bs.length = n) :
    Reads (ofRead (Readable.readField n)) bs bs := by
  subst h
  intro rest offset
  have hle : bs.length ≤ (bs ++ rest).length := by simp
  simp [ofRead, Readable.readField, Slice.read, splitFront_of_le hle]

theorem readPayload (bs : Bytes) : Reads (ofRead (Readable.readPayload bs.length)) bs bs :=
  readField rfl

theorem readByte (b : UInt8) : Reads (ofRead Readable.readByte) [b] b := by
  intro rest offset
  simp [ofRead, Readable.readByte, Readable.readField, Slice.read, splitFront]

theorem skip {bs : Bytes} {n : Nat} (h : bs.length = n) :
    Reads (ofRead (Readable.skip n)) bs () := by
  subst h
  intro rest offset
  have hle : bs.length ≤ (bs ++ rest).length := by simp
  simp [ofRead, Readable.skip, Slice.skip, Slice.read, splitFront_of_le hle]

theorem readLead {α : Type} {ofByte? : UInt8 → Option α} {b : UInt8} {a : α}
    (h : ofByte? b = some a) : Reads (readLead ofByte?) [b] a := by
  intro rest offset
  simp [MessagePack.readLead, Readable.readByte, Readable.readField, Slice.read, splitFront, h]

theorem readLength {width n : Nat} (h : n < 256 ^ width) :
    Reads (readLength (.after width)) (bigEndian width n) n := by
  have hreads := (readField (length_bigEndian width n)).map ofBigEndian
  rwa [ofBigEndian_bigEndian, Nat.mod_eq_of_lt h] at hreads

end Reads

/-! ## Local steps -/

theorem local_read (n : Nat) : Local (ofRead (Readable.readField n)) := by
  intro r bs r' h
  by_cases hn : n ≤ r.rest.length
  · have hread : ofRead (Readable.readField n) r =
        (.ok (r.rest.take n), ⟨r.rest.drop n, r.offset + n⟩) := by
      simp [ofRead, Readable.readField, Slice.read, splitFront_of_le hn]
    rw [hread] at h
    cases h
    exact ⟨_, (List.take_append_drop n r.rest).symm,
      Reads.readField (List.length_take_of_le hn)⟩
  · simp [ofRead, Readable.readField, Slice.read, splitFront_of_lt (Nat.lt_of_not_le hn)] at h

theorem local_skip (n : Nat) : Local (ofRead (Readable.skip n)) := by
  intro r u r' h
  by_cases hn : n ≤ r.rest.length
  · have hskip : ofRead (Readable.skip n) r = (.ok (), ⟨r.rest.drop n, r.offset + n⟩) := by
      simp [ofRead, Readable.skip, Slice.skip, Slice.read, splitFront_of_le hn]
    rw [hskip] at h
    cases h
    exact ⟨_, (List.take_append_drop n r.rest).symm, Reads.skip (List.length_take_of_le hn)⟩
  · simp [ofRead, Readable.skip, Slice.skip, Slice.read, splitFront_of_lt (Nat.lt_of_not_le hn)] at h

/-- The first byte of a value. -/
theorem readLead_ok {α : Type} {ofByte? : UInt8 → Option α} {r r' : Slice} {a : α}
    (h : readLead ofByte? r = (.ok a, r')) :
    ∃ b, ofByte? b = some a ∧ r.rest = b :: r'.rest ∧ r'.offset = r.offset + 1 := by
  obtain ⟨rest, offset⟩ := r
  cases rest with
  | nil => simp [readLead, Readable.readByte, Readable.readField, Slice.read, splitFront] at h
  | cons b rest =>
    cases hb : ofByte? b with
    | none => simp [readLead, Readable.readByte, Readable.readField, Slice.read, splitFront, hb] at h
    | some a' =>
      have hlead := Reads.readLead hb rest offset
      obtain ⟨⟨⟩, rfl⟩ := Prod.mk.inj (hlead.symm.trans h)
      exact ⟨b, hb, rfl, rfl⟩

theorem local_readLead {α : Type} (ofByte? : UInt8 → Option α) : Local (readLead ofByte?) := by
  intro r a r' h
  obtain ⟨b, hb, hrest, -⟩ := readLead_ok h
  exact ⟨[b], hrest, Reads.readLead hb⟩

theorem local_readLength (length : LengthField) : Local (readLength length) := by
  cases length with
  | inTag n => exact Local.pure n
  | after width => exact (local_read width).map _

theorem local_readExtentOf (span : Span) : Local (readExtentOf span) := by
  cases span with
  | fixed extent => exact Local.pure extent
  | payload width | items width | pairs width => exact (local_readLength _).map _
  | extension length =>
    exact (local_readLength length).bind fun n => (local_skip 1).map _

/-- What comes before a payload and children. -/
theorem local_readExtent : Local readExtent := by
  rw [readExtent_eq]
  exact (local_readLead _).bind local_readExtentOf

/-- An extent takes a byte at least. -/
theorem offset_lt_of_readExtent {r r' : Slice} {extent : Extent}
    (h : readExtent r = (.ok extent, r')) : r.offset < r'.offset := by
  rw [readExtent_eq] at h
  obtain ⟨span, r₁, hlead, hrest⟩ := of_bind_ok h
  obtain ⟨_, -, -, hoffset⟩ := readLead_ok hlead
  obtain ⟨_, -, hoffset', -⟩ := (local_readExtentOf span).offset_eq hrest
  omega

/-! ## Byte strings -/

/-- Decoding takes what reading a value takes, whatever comes after it. -/
theorem decode_of_reads {maxDepth : Nat} {bs : Bytes} {v : Value}
    (h : Reads (readAny maxDepth) bs v) (rest : Bytes) :
    decode maxDepth (bs ++ rest) = .ok (v, bs.length) := by
  have hrun : (readAny maxDepth).run (Slice.ofBytes (bs ++ rest)) = (.ok v, ⟨rest, 0 + bs.length⟩) :=
    h rest 0
  rw [decode, hrun, Nat.zero_add]

end MessagePack
