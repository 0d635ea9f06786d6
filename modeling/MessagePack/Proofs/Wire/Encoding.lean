import MessagePack.Proofs.Blocking.Emitting
import MessagePack.Proofs.Value.Nodes

/-!
# What encoding a value answers

Encoding fails for one reason: a string, a binary, an extension, an array or an object somewhere in
the value is too long. The length that is reported is that of the first of these, depth first and
each key before its value; how deep it lies makes no difference. Neither does the buffer that the
value is encoded in: whatever was done with it before, encodings that failed included, the answer is
that of a new one, and nothing is pending after.

* `encode_fails_at_first_too_long`: when encoding fails, and with which length.
* `OutputBuffer.encode_in_any_state`: encoding in every buffer that such calls can reach.
-/

namespace MessagePack

namespace Emission

/-! ## Lengths that do not fit -/

/-- The overflow of a length. -/
def tooLong? (length : Nat) : Option LengthOverflow :=
  if length < 2 ^ 32 then none else some ⟨length⟩

theorem tooLong?_eq_none_iff {length : Nat} : tooLong? length = none ↔ length ≤ 2 ^ 32 - 1 := by
  rw [tooLong?]
  split <;> simp <;> omega

theorem tooLong?_eq_some_iff {length : Nat} {overflow : LengthOverflow} :
    tooLong? length = some overflow ↔ 2 ^ 32 - 1 < length ∧ overflow = ⟨length⟩ := by
  rw [tooLong?]
  split <;> simp [eq_comm] <;> omega

section

variable (e : Emission)

@[simp] theorem overflow_add (piece : Piece) : (e.add piece).overflow = e.overflow := by
  unfold add
  split <;> rfl

@[simp] theorem overflow_put (bytes : Bytes) : (e.put bytes).overflow = e.overflow :=
  overflow_add e _

@[simp] theorem overflow_putMarked (marker : UInt8) (width n : Nat) :
    (e.putMarked marker width n).overflow = e.overflow := overflow_add e _

@[simp] theorem overflow_putUnsigned (n : Nat) : (e.putUnsigned n).overflow = e.overflow := by
  simp only [putUnsigned, apply_ite overflow, overflow_put, overflow_putMarked, ite_self]

@[simp] theorem overflow_putInt (i : Int) : (e.putInt i).overflow = e.overflow := by
  simp only [putInt, apply_ite overflow, overflow_put, overflow_putMarked, overflow_putUnsigned,
    ite_self]

end

section

variable (length : Nat)

/-- A shorter form for small lengths does not change which lengths fit. -/
theorem overflow_ite {bound : Nat} (hbound : bound ≤ 2 ^ 32) {short long : Emission}
    (hshort : short.overflow = none) (hlong : long.overflow = tooLong? length) :
    (if length < bound then short else long).overflow = tooLong? length := by
  split
  case isTrue hlt => rw [hshort, tooLong?, if_pos (Nat.lt_of_lt_of_le hlt hbound)]
  case isFalse => exact hlong

theorem overflow_putLength16 (marker16 marker32 : UInt8) :
    (putLength16 marker16 marker32 length empty).overflow = tooLong? length :=
  overflow_ite length (by decide) rfl (apply_ite overflow _ _ _)

theorem overflow_putLength8 (marker8 marker16 marker32 : UInt8) :
    (putLength8 marker8 marker16 marker32 length empty).overflow = tooLong? length :=
  overflow_ite length (by decide) rfl (overflow_putLength16 length _ _)

theorem overflow_putStringHeader : (putStringHeader length empty).overflow = tooLong? length :=
  overflow_ite length (by decide) rfl (overflow_putLength8 length _ _ _)

theorem overflow_putBinaryHeader : (putBinaryHeader length empty).overflow = tooLong? length :=
  overflow_putLength8 length _ _ _

theorem overflow_putArrayHeader : (putArrayHeader length empty).overflow = tooLong? length :=
  overflow_ite length (by decide) rfl (overflow_putLength16 length _ _)

theorem overflow_putObjectHeader : (putObjectHeader length empty).overflow = tooLong? length :=
  overflow_ite length (by decide) rfl (overflow_putLength16 length _ _)

theorem overflow_putExtensionHeader (type : Int8) :
    (putExtensionHeader type length empty).overflow = tooLong? length := by
  unfold putExtensionHeader
  split
  case h_6 => rw [overflow_put, overflow_putLength8]
  all_goals rfl

end

/-! ## The first of the nodes -/

/-- The overflow of the first node whose length does not fit. -/
def firstTooLong? (nodes : List Value) : Option LengthOverflow :=
  nodes.findSome? fun n => tooLong? n.wireLength

theorem firstTooLong?_append (nodes nodes' : List Value) :
    firstTooLong? (nodes ++ nodes') = (firstTooLong? nodes).or (firstTooLong? nodes') :=
  List.findSome?_append

theorem firstTooLong?_cons (n : Value) (nodes : List Value) :
    firstTooLong? (n :: nodes) = (tooLong? n.wireLength).or (firstTooLong? nodes) := by
  rw [firstTooLong?, List.findSome?_cons]
  cases tooLong? n.wireLength <;> rfl

/-- A value without parts overflows at its own length. -/
theorem overflow_of_isFlat {v : Value} (h : v.isFlat) :
    (ofValue v).overflow = tooLong? v.wireLength := by
  cases v with
  | nil | bool b | float32 x | float64 x => rfl
  | int8 i | int16 i | int32 i | int64 i => exact overflow_putInt empty _
  | uint8 n | uint16 n | uint32 n | uint64 n => exact overflow_putUnsigned empty _
  | string bs => exact (overflow_put _ bs).trans (overflow_putStringHeader _)
  | binary bs => exact (overflow_put _ bs).trans (overflow_putBinaryHeader _)
  | extension type data => exact (overflow_put _ data).trans (overflow_putExtensionHeader _ type)
  | array vs | object es => cases h

theorem overflow_ofItems {vs : List Value}
    (h : ∀ v ∈ vs, (ofValue v).overflow = firstTooLong? v.nodes) :
    (ofItems vs).overflow = firstTooLong? (Value.nodesOfItems vs) := by
  induction vs with
  | nil => rfl
  | cons v vs ih =>
    obtain ⟨hv, hvs⟩ := List.forall_mem_cons.1 h
    rw [ofItems_cons, overflow_append, hv, ih hvs, Value.nodesOfItems, firstTooLong?_append]

theorem overflow_ofEntries {es : List (Value × Value)}
    (h : ∀ e ∈ es, (ofValue e.1).overflow = firstTooLong? e.1.nodes ∧
      (ofValue e.2).overflow = firstTooLong? e.2.nodes) :
    (ofEntries es).overflow = firstTooLong? (Value.nodesOfEntries es) := by
  induction es with
  | nil => rfl
  | cons e es ih =>
    obtain ⟨⟨hkey, hvalue⟩, hes⟩ := List.forall_mem_cons.1 h
    rw [ofEntries_cons, overflow_append, overflow_append, hkey, hvalue, ih hes,
      Value.nodesOfEntries, firstTooLong?_append, firstTooLong?_append]

/-- A header comes before the parts, so a value overflows at the first of its nodes that does. -/
theorem overflow_ofValue (v : Value) : (ofValue v).overflow = firstTooLong? v.nodes := by
  induction v using Value.induction with
  | flat v hv =>
    rw [overflow_of_isFlat hv, Value.nodes_of_isFlat hv, firstTooLong?_cons]
    exact (Option.or_none).symm
  | array vs hvs =>
    rw [ofValue_array, overflow_append, overflow_putArrayHeader, overflow_ofItems hvs, Value.nodes,
      firstTooLong?_cons]
    rfl
  | object es hes =>
    rw [ofValue_object, overflow_append, overflow_putObjectHeader, overflow_ofEntries hes,
      Value.nodes, firstTooLong?_cons]
    rfl

theorem status_eq_error_iff {e : Emission} {overflow : LengthOverflow} :
    e.status = .error overflow ↔ e.overflow = some overflow := by
  unfold status
  cases e.overflow <;> simp

end Emission

theorem encode_eq_error_iff {v : Value} {overflow : LengthOverflow} :
    encode v = .error overflow ↔ (Emission.ofValue v).overflow = some overflow := by
  rw [← Emission.status_eq_error_iff]
  unfold encode
  cases h : (Emission.ofValue v).status <;> simp [h]

/-- A value is encoded unless one of its nodes has a length of more than 32 bits. Then the error
has the length of the first such node, depth first and each key before its value. -/
theorem encode_fails_at_first_too_long (v : Value) :
    ((∃ bs, encode v = .ok bs) ↔ ∀ n ∈ v.nodes, n.wireLength ≤ 2 ^ 32 - 1) ∧
      ∀ overflow, encode v = .error overflow ↔
        ∃ before n later, v.nodes = before ++ n :: later ∧
          (∀ m ∈ before, m.wireLength ≤ 2 ^ 32 - 1) ∧ 2 ^ 32 - 1 < n.wireLength ∧
          overflow = ⟨n.wireLength⟩ := by
  refine ⟨?_, fun overflow => ?_⟩
  · simp only [encode_eq_ok_iff, Emission.status_eq_ok_iff, exists_eq_right',
      Emission.overflow_ofValue, Emission.firstTooLong?, List.findSome?_eq_none_iff,
      Emission.tooLong?_eq_none_iff]
  · simp only [encode_eq_error_iff, Emission.overflow_ofValue, Emission.firstTooLong?,
      List.findSome?_eq_some_iff, Emission.tooLong?_eq_none_iff, Emission.tooLong?_eq_some_iff]
    exact exists₃_congr fun _ _ _ => and_congr_right fun _ => and_comm

/-! ## Buffers in any state -/

/-- What can be done with an encoder that has a buffer. -/
inductive EncoderCall where
  | add (step : EncoderStep)
  | encode (v : Value)
  /-- A call on the buffer itself, such as a flush or a reset. -/
  | direct (call : OutputBuffer.Call)

namespace OutputBuffer

/-- The buffer after a call on its encoder, whether that fails or not. -/
def perform (w : OutputBuffer) : EncoderCall → OutputBuffer
  | .add step => (w.emit step.emission).2
  | .encode v => (w.encode v).2
  | .direct call => w.apply call

/-- A new buffer after calls on its encoder, one after the other. -/
def afterCalls (allocation : Nat) (calls : List EncoderCall) : OutputBuffer :=
  calls.foldl perform (ofAllocation allocation)

/-- What was pending is not in the encoding, and nothing of the encoding stays pending. -/
theorem encode_spec (w : OutputBuffer) (v : Value) :
    (w.encode v).1 = MessagePack.encode v ∧ (w.encode v).2.pending = [] := by
  have hpending := pending_emit w.reset (.ofValue v)
  rw [pending_reset, List.nil_append] at hpending
  have hemit : w.reset.emit (.ofValue v) =
      ((Emission.ofValue v).status, (w.reset.emit (.ofValue v)).2) := rfl
  cases hstatus : (Emission.ofValue v).status with
  | ok =>
    have hencode : w.encode v =
        (.ok (w.reset.emit (.ofValue v)).2.pending, (w.reset.emit (.ofValue v)).2.flush.2) := by
      rw [OutputBuffer.encode, hemit, hstatus]
      rfl
    rw [hencode, hpending, encode_eq_ok_iff.2 ⟨hstatus, rfl⟩]
    exact ⟨rfl, pending_flush _⟩
  | error overflow =>
    have hencode : w.encode v = (.error overflow, (w.reset.emit (.ofValue v)).2.reset) := by
      rw [OutputBuffer.encode, hemit, hstatus]
    rw [hencode, encode_eq_error_iff.2 (Emission.status_eq_error_iff.1 hstatus)]
    exact ⟨rfl, pending_reset _⟩

/-- However an encoder has been used, it encodes a value as a new one does whose buffer has any
size, and whether that succeeds or not, nothing is pending after. -/
theorem encode_in_any_state (allocation : Nat) (calls : List EncoderCall) (v : Value) :
    let w := afterCalls allocation calls
    (w.encode v).1 = MessagePack.encode v ∧
      (∀ allocation', (w.encode v).1 = ((ofAllocation allocation').encode v).1) ∧
      (w.encode v).2.pending = [] ∧ (w.encode v).2.isEmpty = true := by
  intro w
  obtain ⟨hanswer, hpending⟩ := w.encode_spec v
  refine ⟨hanswer, fun allocation' => ?_, hpending, (isEmpty_iff _).2 hpending⟩
  rw [hanswer, ((ofAllocation allocation').encode_spec v).1]

end OutputBuffer

end MessagePack
