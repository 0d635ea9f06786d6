import MessagePack.Proofs.Value.Nodes
import MessagePack.Proofs.Wire.Reading

/-!
# What decoding produces

From whatever input a value is read, the keys of all objects in it strictly ascend.

* `ordered_of_decode`: and so are values that are decoded.
-/

namespace MessagePack

open Reading

variable {σ α β : Type}

/-- Whenever the step succeeds, its result has the property. -/
def Ensures (x : Reading σ α) (P : α → Prop) : Prop := ∀ s a s', x s = (.ok a, s') → P a

namespace Ensures

protected theorem pure {a : α} {P : α → Prop} (h : P a) : Ensures (pure a : Reading σ α) P := by
  rintro _ _ _ ⟨⟩
  exact h

protected theorem bind {x : Reading σ α} {f : α → Reading σ β} {P : α → Prop} {Q : β → Prop}
    (hx : Ensures x P) (hf : ∀ a, P a → Ensures (f a) Q) : Ensures (x >>= f) Q := by
  intro s b s'' h
  obtain ⟨a, s', hr, hr'⟩ := of_bind_ok h
  exact hf a (hx s a s' hr) s' b s'' hr'

/-- Nothing is said about the result of the first step. -/
theorem andThen {x : Reading σ α} {f : α → Reading σ β} {Q : β → Prop}
    (hf : ∀ a, Ensures (f a) Q) : Ensures (x >>= f) Q :=
  Ensures.bind (P := fun _ => True) (fun _ _ _ _ => trivial) fun a _ => hf a

end Ensures

section

variable {item : Reading σ Value} {P : Value → Prop}

theorem ensures_readItems (h : Ensures item P) (n : Nat) {seen : List Value}
    (hseen : ∀ v ∈ seen, P v) : Ensures (readItems item n seen) fun vs => ∀ v ∈ vs, P v := by
  induction n generalizing seen with
  | zero => exact Ensures.pure fun v hv => hseen v (List.mem_reverse.1 hv)
  | succ n ih =>
    rw [readItems_succ]
    exact h.bind fun v hv => ih (List.forall_mem_cons.2 ⟨hv, hseen⟩)

theorem ensures_readEntries (h : Ensures item P) (n : Nat) {entries : List (Value × Value)}
    (hparts : ∀ e ∈ entries, P e.1 ∧ P e.2)
    (hdesc : SortedEntries.Descending Value.cmp entries) :
    Ensures (readEntries item n entries) fun es =>
      (∀ e ∈ es, P e.1 ∧ P e.2) ∧ SortedEntries.Ascending Value.cmp es := by
  induction n generalizing entries with
  | zero =>
    exact Ensures.pure ⟨fun e he => hparts e (List.mem_reverse.1 he),
      SortedEntries.ascending_reverse.2 hdesc⟩
  | succ n ih =>
    rw [readEntries_succ]
    refine h.bind fun k hk => h.bind fun v hv => ih (fun e he => ?_)
      (SortedEntries.insertDescending_ordered k v hdesc)
    rcases SortedEntries.mem_insertDescending he with rfl | he
    · exact ⟨hk, hv⟩
    · exact hparts e he

end

theorem isFlat_of_ofMarker? {b : UInt8} {v : Value} (h : Tag.ofMarker? b = some (.whole v)) :
    v.isFlat := by
  unfold Tag.ofMarker? at h
  split at h <;> cases h <;> rfl

/-- No byte stands for an array or an object by itself. -/
theorem isFlat_of_ofByte? {b : UInt8} {v : Value} (h : Tag.ofByte? b = some (.whole v)) :
    v.isFlat := by
  unfold Tag.ofByte? at h
  repeat' split at h
  all_goals first | exact isFlat_of_ofMarker? h | cases h <;> rfl

theorem ensures_readLead [Readable σ] {ofByte? : UInt8 → Option α} :
    Ensures (readLead ofByte? : Reading σ α) fun a => ∃ b, ofByte? b = some a := by
  intro s a s' h
  unfold readLead at h
  split at h
  · cases h
  · split at h
    · cases h
      exact ⟨_, ‹_›⟩
    · cases h

theorem ensures_readHeader [Readable σ] :
    Ensures (readHeader : Reading σ Header) fun header => ∀ v, header = .whole v → v.isFlat := by
  rw [readHeader_eq]
  refine ensures_readLead.bind fun tag ⟨b, hb⟩ => ?_
  cases tag with
  | whole v => exact Ensures.pure fun w hw => by cases hw; exact isFlat_of_ofByte? hb
  | scalar s => exact Ensures.pure nofun
  | string length | binary length | extension length | array length | object length =>
    exact Ensures.andThen fun n => Ensures.pure nofun

theorem isFlat_ofBits (s : Scalar) (bits : Nat) : (s.ofBits bits).isFlat := by
  cases s <;> rfl

/-- Values that are read are in order. -/
theorem ensures_readValue [Readable σ] (levels : Nat) :
    Ensures (readValue levels : Reading σ Value) Value.Ordered := by
  induction levels with
  | zero => rintro _ _ _ ⟨⟩
  | succ levels ih =>
    rw [readValue_succ]
    refine ensures_readHeader.bind fun header hheader => ?_
    cases header with
    | whole v => exact Ensures.pure (Value.ordered_of_isFlat (hheader v rfl))
    | scalar s =>
      exact Ensures.andThen fun bs => Ensures.pure (Value.ordered_of_isFlat (isFlat_ofBits s _))
    | string length | binary length =>
      exact Ensures.andThen fun bs => Ensures.pure (Value.ordered_of_isFlat rfl)
    | extension length =>
      exact Ensures.andThen fun type => Ensures.andThen fun bs =>
        Ensures.pure (Value.ordered_of_isFlat rfl)
    | array length =>
      refine (ensures_readItems ih length (List.forall_mem_nil _)).bind fun vs hvs =>
        Ensures.pure ?_
      exact Value.everywhere_array.2 ⟨List.Pairwise.nil, hvs⟩
    | object length =>
      refine (ensures_readEntries ih length (List.forall_mem_nil _) .nil).bind fun es hes =>
        Ensures.pure ?_
      exact Value.everywhere_object.2 ⟨hes.2, hes.1⟩

/-- Values that are decoded are in order. -/
theorem ordered_of_decode {maxDepth n : Nat} {bs : Bytes} {v : Value}
    (h : decode maxDepth bs = .ok (v, n)) : v.Ordered := by
  unfold decode at h
  split at h
  · cases h
    exact ensures_readValue _ _ _ _ ‹_›
  · cases h

end MessagePack
