import MessagePack.Proofs.Value.Observation
import MessagePack.Proofs.Wire.Header

/-!
# Encodings decode

The encoding of a value decodes to the value, with every integer in its narrowest width, and nothing
after it is touched. Narrowing keeps the order of keys, so the entries of an object are put in one
above the other as they were written, and none replaces another.

* `decode_encode`: decoding what was encoded.
* `observe_of_decode_encode`: what can be seen of a decoded value.
-/

namespace MessagePack

open Reading

namespace Emission

/-! ## Values without parts -/

/-- Integers of one value are written alike, whatever their widths. -/
theorem ofValue_of_int? {v : Value} {i : Int} (h : v.int? = some i) :
    ofValue v = putInt i empty := by
  have hnat : ∀ n : Nat, putInt n empty = putUnsigned n empty := fun n => by
    rw [putInt, if_pos (Int.natCast_nonneg n), Int.toNat_natCast]
  cases v <;> simp only [Value.int?, Option.some.injEq, reduceCtorEq] at h <;> subst h
  case uint8 n => exact (hnat _).symm
  case uint16 n => exact (hnat _).symm
  case uint32 n => exact (hnat _).symm
  case uint64 n => exact (hnat _).symm
  all_goals rfl

/-- A header and a payload. -/
theorem conveys_payload {bs : Bytes} {f : Emission → Emission} {header : Header}
    {body : Header → Reading Slice Value} {v : Value}
    (h : Conveys (f empty) readHeader header) (hbody : Reads (body header) bs v) :
    Conveys ((f empty).put bs) (readHeader >>= body) v := by
  rw [additive_put]
  exact h.bind (conveys_put hbody)

theorem conveys_extension {levels : Nat} {type : Int8} {data : Bytes}
    (hlen : data.length < 2 ^ 32) :
    Conveys (ofValue (.extension type data)) (readValue (levels + 1)) (.extension type data) := by
  obtain ⟨bs, hheader, hnone, hbytes⟩ := reads_putExtensionHeader type hlen
  show Conveys ((putExtensionHeader type data.length empty).put data) _ _
  refine ⟨by rw [additive_put, overflow_append, hnone]; rfl, ?_⟩
  rw [bytes_put hnone, hbytes, List.append_assoc, readValue_succ]
  exact hheader.bind (Reads.extensionBody type data)

theorem conveys_flat {v : Value} {levels : Nat} (hv : v.isFlat) (henc : v.Encodable) :
    Conveys (ofValue v) (readValue (levels + 1)) v.narrow := by
  have hlen : v.wireLength < 2 ^ 32 := (Value.everywhere_of_isFlat hv).1 henc
  rw [Value.narrow_of_isFlat hv]
  cases hint : v.int? with
  | some i =>
    obtain ⟨hmin, hmax⟩ := Value.int?_bounds hint
    rw [ofValue_of_int? hint]
    exact conveys_putInt hmin hmax
  | none =>
    cases v with
    | nil => exact conveys_whole rfl
    | bool b => cases b <;> exact conveys_whole rfl
    | float32 x =>
      have h : Conveys (ofValue (.float32 x)) (readValue (levels + 1))
          (Scalar.float32.ofBits x.bits.toNat) := conveys_scalar .float32 rfl rfl x.bits.toNat_lt
      rwa [Scalar.ofBits, Binary32.ofBits, UInt32.ofNat_toNat] at h
    | float64 x =>
      have h : Conveys (ofValue (.float64 x)) (readValue (levels + 1))
          (Scalar.float64.ofBits x.bits.toNat) := conveys_scalar .float64 rfl rfl x.bits.toNat_lt
      rwa [Scalar.ofBits, Binary64.ofBits, UInt64.ofNat_toNat] at h
    | string bs =>
      rw [readValue_succ]
      exact conveys_payload (conveys_putStringHeader hlen) ((Reads.readPayload bs).map _)
    | binary bs =>
      rw [readValue_succ]
      exact conveys_payload (conveys_putBinaryHeader hlen) ((Reads.readPayload bs).map _)
    | extension type data => exact conveys_extension hlen
    | array vs | object es => cases hv
    | _ => cases hint

/-! ## Values with parts -/

section

variable {item : Reading Slice Value}

theorem conveys_ofItems {vs : List Value} (hvs : ∀ v ∈ vs, Conveys (ofValue v) item v.narrow)
    (seen : List Value) :
    Conveys (ofItems vs) (readItems item vs.length seen) (seen.reverse ++ Value.narrowItems vs) := by
  induction vs generalizing seen with
  | nil =>
    rw [Value.narrowItems, List.append_nil]
    exact ⟨rfl, Reads.pure _⟩
  | cons v vs ih =>
    have hrest := ih (fun v hv => hvs v (List.mem_cons_of_mem _ hv)) (v.narrow :: seen)
    rw [List.reverse_cons, List.append_assoc] at hrest
    rw [ofItems_cons, List.length_cons, readItems_succ]
    exact (hvs v List.mem_cons_self).bind hrest

/-- Entries that ascend, and lie above those already read, are put on top one after the other. -/
theorem conveys_ofEntries {es : List (Value × Value)}
    (hes : ∀ e ∈ es, Conveys (ofValue e.1) item e.1.narrow ∧ Conveys (ofValue e.2) item e.2.narrow)
    (hasc : SortedEntries.Ascending Value.cmp es) (entries : List (Value × Value))
    (habove : ∀ e ∈ es, ∀ f ∈ entries, e.1.narrow.cmp f.1 = .gt) :
    Conveys (ofEntries es) (readEntries item es.length entries)
      (entries.reverse ++ Value.narrowEntries es) := by
  induction es generalizing entries with
  | nil =>
    rw [Value.narrowEntries, List.append_nil]
    exact ⟨rfl, Reads.pure _⟩
  | cons e es ih =>
    obtain ⟨hkey, hvalue⟩ := hes e List.mem_cons_self
    obtain ⟨hlt, hasc⟩ := List.pairwise_cons.1 hasc
    have habove' : ∀ e' ∈ es, ∀ f ∈ (e.1.narrow, e.2.narrow) :: entries,
        e'.1.narrow.cmp f.1 = .gt := by
      intro e' he' f hf
      rcases List.mem_cons.1 hf with rfl | hf
      · rw [Value.cmp_narrow]
        exact Std.OrientedCmp.gt_of_lt (hlt e' he')
      · exact habove e' (List.mem_cons_of_mem _ he') f hf
    have hrest := ih (fun e he => hes e (List.mem_cons_of_mem _ he)) hasc _ habove'
    rw [List.reverse_cons, List.append_assoc] at hrest
    rw [ofEntries_cons, List.length_cons, readEntries_succ]
    refine hkey.bind (hvalue.bind ?_)
    rw [SortedEntries.insertDescending_of_gt (habove e List.mem_cons_self)]
    exact hrest

end

/-- The emission of a value conveys the value with every integer in its narrowest width. -/
theorem conveys_ofValue {v : Value} (henc : v.Encodable) (hord : v.Ordered) {levels : Nat}
    (hdepth : v.depth < levels) : Conveys (ofValue v) (readValue levels) v.narrow := by
  induction v using Value.induction generalizing levels with
  | flat v hv =>
    obtain ⟨levels, rfl⟩ := Nat.exists_eq_succ_of_ne_zero (Nat.ne_zero_of_lt hdepth)
    exact conveys_flat hv henc
  | array vs hvs =>
    obtain ⟨levels, rfl⟩ := Nat.exists_eq_succ_of_ne_zero (Nat.ne_zero_of_lt hdepth)
    obtain ⟨hlen, henc⟩ := Value.everywhere_array.1 henc
    obtain ⟨-, hord⟩ := Value.everywhere_array.1 hord
    have hparts : ∀ v ∈ vs, Conveys (ofValue v) (readValue levels) v.narrow := by
      intro v hv
      have := Value.depth_lt_of_mem hv
      exact hvs v hv (henc v hv) (hord v hv) (by omega)
    have hitems := conveys_ofItems hparts []
    rw [ofValue_array, readValue_succ]
    exact (conveys_putArrayHeader hlen).bind (hitems.map Value.array)
  | object es hes =>
    obtain ⟨levels, rfl⟩ := Nat.exists_eq_succ_of_ne_zero (Nat.ne_zero_of_lt hdepth)
    obtain ⟨hlen, henc⟩ := Value.everywhere_object.1 henc
    obtain ⟨hasc, hord⟩ := Value.everywhere_object.1 hord
    have hparts : ∀ e ∈ es, Conveys (ofValue e.1) (readValue levels) e.1.narrow ∧
        Conveys (ofValue e.2) (readValue levels) e.2.narrow := by
      intro e he
      have := Value.depth_lt_of_mem_entries he
      exact ⟨(hes e he).1 (henc e he).1 (hord e he).1 (by omega),
        (hes e he).2 (henc e he).2 (hord e he).2 (by omega)⟩
    have hentries := conveys_ofEntries hparts hasc [] nofun
    rw [ofValue_object, readValue_succ]
    exact (conveys_putObjectHeader hlen).bind (hentries.map Value.object)

end Emission

/-! ## Byte strings -/

/-- A value whose lengths fit encodes, and its encoding decodes to the value with every integer in
its narrowest width. -/
theorem decode_encode_narrow {v : Value} {maxDepth : Nat} (henc : v.Encodable) (hord : v.Ordered)
    (hdepth : v.depth ≤ maxDepth) :
    ∃ bs, encode v = .ok bs ∧ decode maxDepth bs = .ok (v.narrow, bs.length) := by
  obtain ⟨hnone, hreads⟩ := Emission.conveys_ofValue henc hord (Nat.lt_succ_of_le hdepth)
  have hdecode := decode_of_reads hreads []
  rw [List.append_nil] at hdecode
  exact ⟨_, encode_eq hnone, hdecode⟩

/-- A value whose lengths fit encodes, and whatever comes after the encoding, decoding takes exactly
the encoding and gives the value back up to the widths of its integers. -/
theorem decode_encode {v : Value} {maxDepth : Nat} (henc : v.Encodable) (hord : v.Ordered)
    (hdepth : v.depth ≤ maxDepth) :
    ∃ bs w, encode v = .ok bs ∧ w.Same v ∧ w == v ∧
      ∀ rest, decode maxDepth (bs ++ rest) = .ok (w, bs.length) := by
  obtain ⟨hnone, hreads⟩ := Emission.conveys_ofValue henc hord (Nat.lt_succ_of_le hdepth)
  exact ⟨_, v.narrow, encode_eq hnone, v.same_narrow.symm, Value.beq_of_same v.same_narrow.symm,
    decode_of_reads hreads⟩

/-- An object of two entries. -/
def nested : Value :=
  .object [(.int64 (-1), .array [.float64 ⟨0x7ff8000000000001⟩, .array []]),
    (.uint64 300, .float32 ⟨0x80000000⟩)]

/-- A value with a wide integer in a key, a payload that is not a number, a negative zero and an
empty array. -/
theorem decode_encode_nested :
    ∃ bs w, encode nested = .ok bs ∧ w.Same nested ∧ w == nested ∧
      ∀ rest, decode 2 (bs ++ rest) = .ok (w, bs.length) :=
  decode_encode (by decide +kernel) (by decide +kernel) (by decide +kernel)

/-- A value and what is decoded from its encoding cannot be told apart by any accessor that does not
ask how wide an integer is, wherever in them one looks. -/
theorem observe_of_decode_encode {v : Value} {maxDepth : Nat} (henc : v.Encodable)
    (hord : v.Ordered) (hdepth : v.depth ≤ maxDepth) :
    ∃ bs w, encode v = .ok bs ∧ decode maxDepth bs = .ok (w, bs.length) ∧
      ∀ path, (w.follow path).observe = (v.follow path).observe := by
  obtain ⟨bs, hencode, hdecode⟩ := decode_encode_narrow henc hord hdepth
  exact ⟨bs, v.narrow, hencode, hdecode,
    fun path => Value.observe_of_same (v.same_narrow.symm.follow path)⟩

/-- A look-up by a float finds the entry with the wide integer key, also when its key is decoded. -/
theorem observe_of_decode_encode_nested :
    (nested.follow [.get (.float64 ⟨0x4072c00000000000⟩)]).observe.isFloat32 = true ∧
      ∃ bs w, encode nested = .ok bs ∧ decode 2 bs = .ok (w, bs.length) ∧
        ∀ path, (w.follow path).observe = (nested.follow path).observe :=
  ⟨by decide +kernel,
    observe_of_decode_encode (by decide +kernel) (by decide +kernel) (by decide +kernel)⟩

end MessagePack
