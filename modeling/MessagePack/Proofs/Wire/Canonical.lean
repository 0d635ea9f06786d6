import MessagePack.Proofs.Wire.Shortest

/-!
# Equal encodings

What the encoder writes tells values apart that are not equal. Integers are written by their values
alone, so between values without floats it is the other way round too: equal values have one
encoding.

* `beq_of_encode_eq`: values are equal if what the encoder writes for them is.
* `encode_eq_iff_beq`: equal encodings and equal values.
-/

namespace MessagePack

namespace Value

/-- No node is a float. -/
def FloatFree : Value → Prop := Everywhere fun n => n.kind ≠ .float32 ∧ n.kind ≠ .float64

instance (v : Value) : Decidable v.FloatFree := by
  unfold FloatFree
  infer_instance

/-! ## Equality without floats -/

theorem rank_eq_of_cmp_eq {a b : Value} (h : a.cmp b = .eq) : a.kind.rank = b.kind.rank := by
  by_contra hne
  rw [cmp_of_rank (by simpa using hne)] at h
  exact hne (Nat.compare_eq_eq.1 h)

theorem int?_of_floatFree {v : Value} {x : Numeral} (hv : v.FloatFree) (h : v.number? = some x) :
    ∃ i, v.int? = some i ∧ x = .int i := by
  have hkind := hv v (by cases v <;> simp [nodes])
  cases v <;> simp_all [number?, int?, kind]

/-- What equals an integer and is no float holds the same integer. -/
theorem int?_eq_of_cmp_eq {a b : Value} {i : Int} (hb : b.FloatFree) (ha : a.int? = some i)
    (h : a.cmp b = .eq) : b.int? = some i := by
  have hrank := rank_eq_of_cmp_eq h
  have hnumber := number?_of_int? ha
  obtain ⟨y, hy⟩ := number?_of_rank (hrank ▸ (number?_spec hnumber).2.2)
  obtain ⟨j, hj, rfl⟩ := int?_of_floatFree hb hy
  rw [cmp_eq_cmpFlat (isFlat_of_int? ha) hrank, cmpFlat_number hnumber hy] at h
  rw [hj, Std.compare_eq_iff_eq.1 (show compare i j = .eq from h)]

/-- A value without parts that is not a number equals itself only. -/
theorem eq_of_cmp_eq {a b : Value} (hflat : a.isFlat) (ha : a.number? = none)
    (h : a.cmp b = .eq) : a = b := by
  have hrank := rank_eq_of_cmp_eq h
  rw [cmp_eq_cmpFlat hflat hrank] at h
  cases a <;> cases b <;> simp_all [cmpFlat, kind, Kind.rank, isFlat, number?, int?]

/-- Of the values without floats, the value equals only those that are the same. -/
def TellsApart (v : Value) : Prop := ∀ w, w.FloatFree → v.cmp w = .eq → v.Same w

theorem sameItems_of_cmpItems_eq {vs ws : List Value} (hvs : ∀ v ∈ vs, v.TellsApart)
    (hws : ∀ w ∈ ws, w.FloatFree) (h : cmpItems vs ws = .eq) : SameItems vs ws := by
  induction vs generalizing ws with
  | nil => cases ws <;> simp_all [cmpItems, SameItems]
  | cons v vs ih =>
    cases ws with
    | nil => simp [cmpItems] at h
    | cons w ws =>
      rw [List.forall_mem_cons] at hvs hws
      rw [cmpItems_cons, Ordering.then_eq_eq] at h
      exact ⟨hvs.1 w hws.1 h.1, ih hvs.2 hws.2 h.2⟩

theorem sameEntries_of_cmpEntries_eq {es fs : List (Value × Value)}
    (hes : ∀ e ∈ es, e.1.TellsApart ∧ e.2.TellsApart)
    (hfs : ∀ f ∈ fs, f.1.FloatFree ∧ f.2.FloatFree) (h : cmpEntries es fs = .eq) :
    SameEntries es fs := by
  induction es generalizing fs with
  | nil => cases fs <;> simp_all [cmpEntries, SameEntries]
  | cons e es ih =>
    cases fs with
    | nil => simp [cmpEntries] at h
    | cons f fs =>
      rw [List.forall_mem_cons] at hes hfs
      rw [cmpEntries_cons, Ordering.then_eq_eq, Ordering.then_eq_eq] at h
      exact ⟨hes.1.1 f.1 hfs.1.1 h.1, hes.1.2 f.2 hfs.1.2 h.2.1, ih hes.2 hfs.2 h.2.2⟩

/-- Values without floats are equal only if they differ in the widths of integers at most. -/
theorem same_of_cmp_eq {a : Value} (ha : a.FloatFree) : a.TellsApart := by
  induction a using Value.induction with
  | flat a hflat =>
    intro b hb h
    cases hnumber : a.number? with
    | none =>
      obtain rfl := eq_of_cmp_eq hflat hnumber h
      exact (same_of_isFlat hflat).2 ⟨rfl, fun _ => rfl⟩
    | some x =>
      obtain ⟨i, hi, -⟩ := int?_of_floatFree ha hnumber
      exact same_of_int? hi (int?_eq_of_cmp_eq hb hi h)
  | array vs hvs =>
    intro b hb h
    have hrank := rank_eq_of_cmp_eq h
    cases b with
    | array ws =>
      rw [cmp_array] at h
      exact sameItems_of_cmpItems_eq (fun v hv => hvs v hv ((everywhere_array.1 ha).2 v hv))
        (everywhere_array.1 hb).2 h
    | _ => cases hrank
  | object es hes =>
    intro b hb h
    have hrank := rank_eq_of_cmp_eq h
    cases b with
    | object fs =>
      obtain ⟨-, ha⟩ := everywhere_object.1 ha
      rw [cmp_object] at h
      exact sameEntries_of_cmpEntries_eq
        (fun e he => ⟨(hes e he).1 (ha e he).1, (hes e he).2 (ha e he).2⟩)
        (everywhere_object.1 hb).2 h
    | _ => cases hrank

end Value

/-! ## Encodings -/

/-- Nothing but equal values is written alike. -/
theorem beq_of_encode_eq {a b : Value} (ha : a.Encodable) (hb : b.Encodable) (hoa : a.Ordered)
    (hob : b.Ordered) (h : encode a = encode b) : a == b := by
  let levels := max a.depth b.depth + 1
  obtain ⟨hnone, hreads⟩ := Emission.conveys_ofValue ha hoa
    (show a.depth < levels from Nat.lt_succ_of_le (Nat.le_max_left _ _))
  obtain ⟨hnone', hreads'⟩ := Emission.conveys_ofValue hb hob
    (show b.depth < levels from Nat.lt_succ_of_le (Nat.le_max_right _ _))
  rw [encode_eq hnone, encode_eq hnone', Except.ok.injEq] at h
  rw [h] at hreads
  have hnarrow : a.narrow = b.narrow := hreads.unique hreads'
  rw [Value.beq_iff, ← Value.cmp_narrow, hnarrow]
  exact Std.ReflCmp.compare_self

/-- Values with one encoding are equal. Equal values without floats have one encoding, whatever the
widths of their integers and the order in which their entries were put in. -/
theorem encode_eq_iff_beq {a b : Value} (ha : a.Encodable) (hb : b.Encodable) (hoa : a.Ordered)
    (hob : b.Ordered) :
    (encode a = encode b → a == b) ∧
      (a.FloatFree → b.FloatFree → (a == b ↔ encode a = encode b)) := by
  have hbeq := beq_of_encode_eq ha hb hoa hob
  refine ⟨hbeq, fun hfa hfb => ⟨fun heq => ?_, hbeq⟩⟩
  have hsame : a.Same b := Value.same_of_cmp_eq hfa b hfb (Value.beq_iff.1 heq)
  rw [encode, encode, Emission.ofValue_of_same hsame]

/-- An object with wide integers and the same with narrow ones, built in the opposite order. -/
theorem encode_eq_iff_beq_widths :
    let a := Value.ofPairs [(.int64 300, .array [.uint64 5]), (.int16 (-1), .nil)]
    let b := Value.ofPairs [(.int8 (-1), .nil), (.uint16 300, .array [.int8 5])]
    a == b ∧ encode a = encode b := by
  intro a b
  have heq : a == b := by decide +kernel
  have h := encode_eq_iff_beq (a := a) (b := b) (by decide +kernel) (by decide +kernel)
    (by decide +kernel) (by decide +kernel)
  exact ⟨heq, (h.2 (by decide +kernel) (by decide +kernel)).1 heq⟩

end MessagePack
