import MessagePack.Proofs.Wire.Reading

/-!
# Skipping agrees with decoding

On byte strings, passing over a value is reading it and forgetting it. First bytes are looked up in
two tables, one for building and one for passing over; they agree. Fields, payloads and
children are then passed over one for one, an entry counting as two children.

* `Span.ofByte?_eq`: the two tables agree.
* `validate_agrees`: validating a byte string is decoding it, errors included.
-/

namespace MessagePack

open Reading

/-! ## First bytes -/

/-- All that a tag says about what follows. -/
def Tag.span : Tag → Span
  | whole _ => .fixed ⟨0, 0⟩
  | scalar s => .fixed ⟨s.size, 0⟩
  | string (.inTag n) | binary (.inTag n) => .fixed ⟨n, 0⟩
  | string (.after width) | binary (.after width) => .payload width
  | extension length => .extension length
  | array (.inTag n) => .fixed ⟨0, n⟩
  | array (.after width) => .items width
  | object (.inTag n) => .fixed ⟨0, 2 * n⟩
  | object (.after width) => .pairs width

/-- The span of every byte is that of its tag. -/
theorem Span.ofByte?_eq (b : UInt8) : Span.ofByte? b = (Tag.ofByte? b).map Tag.span := by
  revert b
  exact forall_byte (by decide +kernel)

/-- Looking up a byte in a coarser table is looking it up in the finer one. -/
theorem readLead_map {σ α β : Type} [Readable σ] (ofByte? : UInt8 → Option α) (f : α → β) :
    (readLead (fun b => (ofByte? b).map f) : Reading σ β) =
      readLead ofByte? >>= fun a => pure (f a) := by
  funext s
  rw [bind_def]
  unfold readLead
  rcases Readable.readByte s with ⟨_ | b, s'⟩
  · rfl
  · simp only
    cases ofByte? b <;> rfl

/-! ## Bytes -/

theorem skip_eq_void (n : Nat) :
    (ofRead (Readable.skip n) : Reading Slice Unit) = (ofRead (Readable.readPayload n)).void := by
  funext r
  rcases h : r.read n with ⟨_ | _, _⟩ <;>
    simp [void_apply, ofRead, Readable.skip, Readable.readPayload, Slice.skip, h, Except.map]

theorem skip_zero : (ofRead (Readable.skip 0) : Reading Slice Unit) = pure () := by
  funext r
  simp [ofRead, Readable.skip, Slice.skip, Slice.read, splitFront, pure_def]

theorem skip_one :
    (ofRead (Readable.skip 1) : Reading Slice Unit) = (ofRead Readable.readByte).void := by
  funext r
  rcases h : r.read 1 with ⟨_ | _, _⟩ <;>
    simp [void_apply, ofRead, Readable.skip, Readable.readByte, Readable.readField, Slice.skip, h,
      Except.map]

/-! ## Children -/

section

variable {σ : Type} (item : Reading σ Value)

theorem skipItems_void (n : Nat) (seen : List Value) :
    skipItems item.void n = (readItems item n seen).void := by
  induction n generalizing seen with
  | zero => rfl
  | succ n ih =>
    rw [skipItems_succ, readItems_succ, void_bind, void, bind_assoc]
    refine bind_congr fun v => ?_
    rw [pure_bind]
    exact ih (v :: seen)

/-- An entry is passed over as two values. -/
theorem skipItems_void_two_mul (n : Nat) (entries : List (Value × Value)) :
    skipItems item.void (2 * n) = (readEntries item n entries).void := by
  induction n generalizing entries with
  | zero => rfl
  | succ n ih =>
    rw [Nat.mul_succ, skipItems_succ, skipItems_succ, readEntries_succ, void_bind, void, bind_assoc]
    refine bind_congr fun k => ?_
    rw [pure_bind, void_bind, bind_assoc]
    refine bind_congr fun v => ?_
    rw [pure_bind]
    exact ih _

end

/-! ## Values -/

/-- Passing over a value is reading it. -/
theorem skipValue_eq_void (levels : Nat) :
    (skipValue levels : Reading Slice Unit) = (readValue levels).void := by
  induction levels with
  | zero => rfl
  | succ levels ih =>
    have hlead : (readLead Span.ofByte? : Reading Slice Span) =
        readLead Tag.ofByte? >>= fun tag => pure tag.span := by
      rw [← readLead_map]
      exact congrArg _ (funext Span.ofByte?_eq)
    unfold skipValue readExtent readValue readHeader
    rw [ih, hlead]
    simp only [bind_assoc, pure_bind, void_bind]
    refine bind_congr fun tag => ?_
    -- What follows the first byte, by tag; the length is in the byte or in a field of its own.
    cases tag with
    | whole v => simp only [Tag.span, pure_bind, skip_zero, skipItems_zero, void_pure]
    | scalar s =>
      simp only [Tag.span, pure_bind, skip_eq_void, void_then, skipItems_zero, void_pure, void_bind]
      rfl
    | string length | binary length =>
      cases length with
      | inTag n =>
        simp only [Tag.span, readLength, pure_bind, skip_eq_void, void_then, skipItems_zero,
          void_pure, void_bind]
      | after width =>
        simp only [Tag.span, bind_assoc, pure_bind, skip_eq_void, void_then, skipItems_zero,
          void_pure, void_bind]
    | extension length =>
      simp only [Tag.span, bind_assoc, pure_bind, skip_one, void_then, void_bind]
      simp only [skip_eq_void, void_then, skipItems_zero, void_pure]
    | array length =>
      cases length with
      | inTag n =>
        simp only [Tag.span, readLength, pure_bind, skip_zero, void_pure, void_bind]
        exact skipItems_void _ n []
      | after width =>
        simp only [Tag.span, bind_assoc, pure_bind, skip_zero, void_pure, void_bind]
        exact bind_congr fun n => skipItems_void _ n []
    | object length =>
      cases length with
      | inTag n =>
        simp only [Tag.span, readLength, pure_bind, skip_zero, void_pure, void_bind]
        exact skipItems_void_two_mul _ n []
      | after width =>
        simp only [Tag.span, bind_assoc, pure_bind, skip_zero, void_pure, void_bind]
        exact bind_congr fun n => skipItems_void_two_mul _ n []

/-- Passing over a value ends where reading it ends, with the same error if it fails. -/
theorem skipAny_apply (maxDepth : Nat) (r : Slice) :
    (skipAny maxDepth).run r =
      (((readAny maxDepth).run r).1.map fun _ => (), ((readAny maxDepth).run r).2) := by
  show skipValue (maxDepth + 1) r = _
  rw [skipValue_eq_void, void_apply]
  rfl

theorem validate_eq (maxDepth : Nat) (bs : Bytes) :
    validate maxDepth bs = (decode maxDepth bs).map (·.2) := by
  unfold validate decode
  rw [skipAny_apply]
  rcases (readAny maxDepth).run (Slice.ofBytes bs) with ⟨_ | _, _⟩ <;> rfl

/-- A byte string validates to the number of bytes of the value that it decodes to, or to the error
that decoding fails with. From any place in it, reading and passing over stop at the same place. -/
theorem validate_agrees (maxDepth : Nat) (bs : Bytes) :
    (∀ n, validate maxDepth bs = .ok n ↔ ∃ v, decode maxDepth bs = .ok (v, n)) ∧
    (∀ e, validate maxDepth bs = .error e ↔ decode maxDepth bs = .error e) ∧
    (∀ r : Slice, ((skipAny maxDepth).run r).2 = ((readAny maxDepth).run r).2 ∧
      ∀ e, ((skipAny maxDepth).run r).1 = .error e ↔ ((readAny maxDepth).run r).1 = .error e) := by
  rw [validate_eq]
  refine ⟨fun n => ?_, fun e => ?_, fun r => ?_⟩
  · cases decode maxDepth bs with
    | error e => simp [Except.map]
    | ok result => simp [Except.map, Prod.ext_iff]
  · cases decode maxDepth bs <;> simp [Except.map]
  · rw [skipAny_apply]
    refine ⟨rfl, fun e => ?_⟩
    cases ((readAny maxDepth).run r).1 <;> simp [Except.map]

end MessagePack
