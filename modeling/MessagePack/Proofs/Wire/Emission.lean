import MessagePack.Proofs.Value.Order
import MessagePack.Wire.Emission

/-!
# Emissions one after another

Emissions append: the pieces of the second come after those of the first, and a length that did
not fit ends both. Every operation adds the same whatever is there already, so the emission of a
value is put together from those of its parts.

* `Emission.Additive`: what an operation adds does not depend on what is there.
* `encode_eq_ok_iff`, `encode_eq`: the encoding of a value from its emission.
-/

namespace MessagePack.Emission

/-! ## Appending -/

/-- One emission after another. -/
def append (e e' : Emission) : Emission :=
  match e.overflow with
  | none => ⟨e'.pieces ++ e.pieces, e'.overflow⟩
  | some _ => e

instance : Append Emission := ⟨append⟩

theorem append_of_none {e : Emission} (h : e.overflow = none) (e' : Emission) :
    e ++ e' = ⟨e'.pieces ++ e.pieces, e'.overflow⟩ := by
  show append e e' = _
  rw [append, h]

theorem append_of_some {e : Emission} {overflow : LengthOverflow} (h : e.overflow = some overflow)
    (e' : Emission) : e ++ e' = e := by
  show append e e' = _
  rw [append, h]

@[simp] theorem append_empty (e : Emission) : e ++ empty = e := by
  cases h : e.overflow with
  | none =>
    rw [append_of_none h]
    cases e
    cases h
    rfl
  | some overflow => exact append_of_some h _

theorem append_assoc (e e' e'' : Emission) : e ++ e' ++ e'' = e ++ (e' ++ e'') := by
  cases h : e.overflow with
  | none =>
    cases h' : e'.overflow with
    | none => simp [append_of_none, h, h']
    | some overflow' =>
      rw [append_of_some h', append_of_none h, h']
      exact append_of_some rfl _
  | some overflow => rw [append_of_some h, append_of_some h, append_of_some h]

/-- The first length that did not fit is the one that counts. -/
theorem overflow_append (e e' : Emission) : (e ++ e').overflow = e.overflow.or e'.overflow := by
  cases h : e.overflow with
  | none => rw [append_of_none h, Option.none_or]
  | some overflow => rw [append_of_some h, h, Option.some_or]

theorem bytes_append {e : Emission} (h : e.overflow = none) (e' : Emission) :
    (e ++ e').bytes = e.bytes ++ e'.bytes := by
  rw [append_of_none h]
  simp [bytes]

/-! ## Operations that add -/

/-- What an operation adds does not depend on what is there. -/
def Additive (f : Emission → Emission) : Prop := ∀ e, f e = e ++ f empty

namespace Additive

theorem id : Additive fun e => e := fun e => (append_empty e).symm

theorem comp {f g : Emission → Emission} (hg : Additive g) (hf : Additive f) :
    Additive fun e => g (f e) := by
  intro e
  show g (f e) = e ++ g (f empty)
  rw [hg (f e), hf e, append_assoc, ← hg (f empty)]

theorem ite {c : Prop} [Decidable c] {f g : Emission → Emission} (hf : Additive f)
    (hg : Additive g) : Additive fun e => if c then f e else g e := by
  split
  · exact hf
  · exact hg

end Additive

theorem additive_add (piece : Piece) : Additive (add piece) := by
  intro e
  cases h : e.overflow with
  | none => simp [append_of_none, add, h, empty]
  | some overflow => simp [append_of_some h, add, h]

theorem additive_put (bytes : Bytes) : Additive (put bytes) := additive_add _

theorem additive_refuse (length : Nat) : Additive (refuse length) := by
  intro e
  cases h : e.overflow with
  | none => simp [append_of_none, refuse, h, empty]
  | some overflow => simp [append_of_some h, refuse, h]

theorem additive_putMarked (marker : UInt8) (width n : Nat) : Additive (putMarked marker width n) :=
  additive_add _

theorem additive_putUnsigned (n : Nat) : Additive (putUnsigned n) :=
  .ite (additive_put _) <| .ite (additive_putMarked _ _ _) <| .ite (additive_putMarked _ _ _) <|
    .ite (additive_putMarked _ _ _) (additive_putMarked _ _ _)

theorem additive_putInt (i : Int) : Additive (putInt i) :=
  .ite (additive_putUnsigned _) <| .ite (additive_put _) <| .ite (additive_putMarked _ _ _) <|
    .ite (additive_putMarked _ _ _) <| .ite (additive_putMarked _ _ _) (additive_putMarked _ _ _)

theorem additive_putLength16 (marker16 marker32 : UInt8) (length : Nat) :
    Additive (putLength16 marker16 marker32 length) :=
  .ite (additive_putMarked _ _ _) <| .ite (additive_putMarked _ _ _) (additive_refuse _)

theorem additive_putLength8 (marker8 marker16 marker32 : UInt8) (length : Nat) :
    Additive (putLength8 marker8 marker16 marker32 length) :=
  .ite (additive_putMarked _ _ _) (additive_putLength16 _ _ _)

theorem additive_putStringHeader (length : Nat) : Additive (putStringHeader length) :=
  .ite (additive_put _) (additive_putLength8 _ _ _ _)

theorem additive_putBinaryHeader (length : Nat) : Additive (putBinaryHeader length) :=
  additive_putLength8 _ _ _ _

theorem additive_putArrayHeader (length : Nat) : Additive (putArrayHeader length) :=
  .ite (additive_put _) (additive_putLength16 _ _ _)

theorem additive_putObjectHeader (length : Nat) : Additive (putObjectHeader length) :=
  .ite (additive_put _) (additive_putLength16 _ _ _)

theorem additive_putExtensionHeader (type : Int8) (length : Nat) :
    Additive (putExtensionHeader type length) := by
  intro e
  unfold putExtensionHeader
  split
  case h_6 => exact ((additive_put _).comp (additive_putLength8 _ _ _ _)) e
  all_goals exact additive_put _ e

/-! ## Values -/

theorem additive_putItems {vs : List Value} (h : ∀ v ∈ vs, Additive (putValue v)) :
    Additive (putItems vs) := by
  induction vs with
  | nil => exact .id
  | cons v vs ih =>
    exact (ih fun v hv => h v (List.mem_cons_of_mem _ hv)).comp (h v List.mem_cons_self)

theorem additive_putEntries {es : List (Value × Value)}
    (h : ∀ e ∈ es, Additive (putValue e.1) ∧ Additive (putValue e.2)) :
    Additive (putEntries es) := by
  induction es with
  | nil => exact .id
  | cons e es ih =>
    obtain ⟨hkey, hvalue⟩ := h e List.mem_cons_self
    exact (ih fun e he => h e (List.mem_cons_of_mem _ he)).comp (hvalue.comp hkey)

theorem additive_putValue (v : Value) : Additive (putValue v) := by
  induction v using Value.induction with
  | flat v hv =>
    cases v with
    | nil | bool b => exact additive_put _
    | float32 x | float64 x => exact additive_putMarked _ _ _
    | int8 i | int16 i | int32 i | int64 i => exact additive_putInt _
    | uint8 n | uint16 n | uint32 n | uint64 n => exact additive_putUnsigned _
    | string bs => exact (additive_put bs).comp (additive_putStringHeader _)
    | binary bs => exact (additive_put bs).comp (additive_putBinaryHeader _)
    | extension type data => exact (additive_put data).comp (additive_putExtensionHeader _ _)
    | array vs | object es => cases hv
  | array vs hvs => exact (additive_putItems hvs).comp (additive_putArrayHeader _)
  | object es hes => exact (additive_putEntries hes).comp (additive_putObjectHeader _)

/-- Adding a value is appending its emission. -/
theorem putValue_eq (v : Value) (e : Emission) : putValue v e = e ++ ofValue v :=
  additive_putValue v e

/-- The emission of values one after the other. -/
def ofItems (vs : List Value) : Emission := putItems vs empty

/-- The emission of entries one after the other. -/
def ofEntries (es : List (Value × Value)) : Emission := putEntries es empty

theorem ofItems_cons (v : Value) (vs : List Value) : ofItems (v :: vs) = ofValue v ++ ofItems vs :=
  additive_putItems (fun v _ => additive_putValue v) (ofValue v)

theorem ofEntries_cons (k v : Value) (es : List (Value × Value)) :
    ofEntries ((k, v) :: es) = ofValue k ++ (ofValue v ++ ofEntries es) := by
  have hes : Additive (putEntries es) :=
    additive_putEntries fun e _ => ⟨additive_putValue e.1, additive_putValue e.2⟩
  show putEntries es (putValue v (putValue k empty)) = _
  rw [hes, putValue_eq, append_assoc]
  rfl

theorem ofValue_array (vs : List Value) :
    ofValue (.array vs) = putArrayHeader vs.length empty ++ ofItems vs :=
  additive_putItems (fun v _ => additive_putValue v) _

theorem ofValue_object (es : List (Value × Value)) :
    ofValue (.object es) = putObjectHeader es.length empty ++ ofEntries es :=
  additive_putEntries (fun e _ => ⟨additive_putValue e.1, additive_putValue e.2⟩) _

end MessagePack.Emission

namespace MessagePack

theorem Emission.status_eq_ok_iff {e : Emission} : e.status = .ok () ↔ e.overflow = none := by
  unfold status
  cases e.overflow <;> simp

/-- A value has an encoding if its emission is complete: all that was emitted. -/
theorem encode_eq_ok_iff {v : Value} {bs : Bytes} :
    encode v = .ok bs ↔ (Emission.ofValue v).status = .ok () ∧ (Emission.ofValue v).bytes = bs := by
  unfold encode
  cases h : (Emission.ofValue v).status <;> simp [h]

/-- The encoding of a value whose lengths all fit. -/
theorem encode_eq {v : Value} (h : (Emission.ofValue v).overflow = none) :
    encode v = .ok (Emission.ofValue v).bytes :=
  encode_eq_ok_iff.2 ⟨Emission.status_eq_ok_iff.2 h, rfl⟩

end MessagePack
