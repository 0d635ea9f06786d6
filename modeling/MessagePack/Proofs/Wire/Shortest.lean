import MessagePack.Proofs.Wire.Parsing
import MessagePack.Proofs.Wire.RoundTrip
import MessagePack.Proofs.Wire.Decoded

/-!
# The canonical encoding is the shortest

Nothing that encodes a value is shorter than what the encoder writes for it. The encoder looks at
nothing but the value up to the widths of its integers, so what it writes decodes to a value for
which it writes the same again.

* `Emission.size_ofValue_le`: the emission of a value is no longer than an encoding of it.
* `encode_of_decode`: encoding what was decoded.
-/

namespace MessagePack

/-! ## Lengths in the grammar -/

namespace Sized

theorem lt_of_mem_countFrom {first b : UInt8} {limit n : Nat} (h : (b, n) ∈ countFrom first limit) :
    n < limit := by
  obtain ⟨m, hm, hpair⟩ := List.mem_map.1 h
  cases hpair
  exact List.mem_range.1 hm

theorem width_of_marked {sort : Sized} {b : UInt8} {width : Nat} (h : (b, width) ∈ sort.marked) :
    width = 1 ∨ width = 2 ∨ width = 4 := by
  have hall : ∀ sort : Sized, ∀ entry ∈ sort.marked,
      entry.2 = 1 ∨ entry.2 = 2 ∨ entry.2 = 4 := by
    intro sort
    cases sort <;> decide
  exact hall sort _ h

/-- The lengths of arrays and objects have no field of a single byte. -/
theorem width_of_marked_parts {sort : Sized} (hsort : sort = array ∨ sort = object) {b : UInt8}
    {width : Nat} (h : (b, width) ∈ sort.marked) : width = 2 ∨ width = 4 := by
  have hall : ∀ entry ∈ sort.marked, entry.2 = 2 ∨ entry.2 = 4 := by
    rcases hsort with rfl | rfl <;> decide
  exact hall _ h

variable {sort : Sized} {n : Nat} {header : Bytes}

theorem Spells.length_pos (h : sort.Spells n header) : 0 < header.length := by
  cases h <;> exact Nat.succ_pos _

/-- Lengths have at most 32 bits. -/
theorem Spells.lt (h : sort.Spells n header) : n < 2 ^ 32 := by
  cases h with
  | @fixed b h =>
    have hall : ∀ sort : Sized, ∀ entry ∈ sort.fixed, entry.2 < 2 ^ 32 := by
      intro sort
      cases sort <;> decide
    exact hall sort _ h
  | marked h hn => rcases width_of_marked h with rfl | rfl | rfl <;> omega

end Sized

/-! ## Lengths of parts -/

namespace Part

theorem length_bytesOf (parts : List Part) :
    (bytesOf parts).length = (parts.map fun part => part.bytes.length).sum := List.length_flatMap

theorem length_bytesOf_ofPairs (pairs : List (Part × Part)) :
    (bytesOf (ofPairs pairs)).length =
      (pairs.map fun pair => pair.1.bytes.length + pair.2.bytes.length).sum := by
  induction pairs with
  | nil => rfl
  | cons pair pairs ih =>
    show (pair.1.bytes ++ (pair.2.bytes ++ bytesOf (ofPairs pairs))).length = _
    rw [List.length_append, List.length_append, ih, List.map_cons, List.sum_cons, Nat.add_assoc]

/-- An object has no more entries than there are pairs. -/
theorem length_ofPairs_entriesOf_le (pairs : List (Part × Part)) :
    (SortedEntries.ofPairs Value.cmp (entriesOf pairs)).length ≤ pairs.length := by
  have hlength : (SortedEntries.ofPairs Value.cmp (entriesOf pairs)).length ≤
      (entriesOf pairs).length := (SortedEntries.ofPairs_subperm _).length_le
  rwa [entriesOf, List.length_map] at hlength

end Part

namespace Emission

/-! ## Lengths of emissions -/

/-- The number of bytes. -/
def size (e : Emission) : Nat := e.bytes.length

theorem size_append_le (e e' : Emission) : (e ++ e').size ≤ e.size + e'.size := by
  cases h : e.overflow with
  | none => rw [size, bytes_append h, List.length_append, size, size]
  | some overflow =>
    rw [append_of_some h]
    exact Nat.le_add_right _ _

theorem size_put_le (piece : Bytes) (e : Emission) : (put piece e).size ≤ e.size + piece.length := by
  rw [additive_put]
  refine Nat.le_trans (size_append_le _ _) (Nat.le_of_eq ?_)
  rw [size, size, bytes_put rfl]
  rfl

theorem size_putMarked (marker : UInt8) (width n : Nat) :
    (putMarked marker width n empty).size = width + 1 := by
  rw [size, putMarked, bytes_add rfl]
  show (marker :: bigEndian width n).length = width + 1
  rw [List.length_cons, length_bigEndian]

/-! ## Headers -/

section

variable {marker8 marker16 marker32 : UInt8} {width n : Nat} {header : Bytes}

theorem size_putLength16_le (hwidth : width = 2 ∨ width = 4) (hn : n < 256 ^ width) :
    (putLength16 marker16 marker32 n empty).size ≤ width + 1 := by
  unfold putLength16
  split_ifs with h16 h32
  · exact (size_putMarked ..).trans_le (by omega)
  · refine (size_putMarked ..).trans_le ?_
    rcases hwidth with rfl | rfl <;> omega
  · rcases hwidth with rfl | rfl <;> omega

theorem size_putLength8_le (hwidth : width = 1 ∨ width = 2 ∨ width = 4) (hn : n < 256 ^ width) :
    (putLength8 marker8 marker16 marker32 n empty).size ≤ width + 1 := by
  unfold putLength8
  split
  case isTrue =>
    rw [size_putMarked]
    omega
  case isFalse hlarge =>
    refine size_putLength16_le (hwidth.resolve_left ?_) hn
    rintro rfl
    exact hlarge hn

theorem size_putStringHeader_le (h : Sized.string.Spells n header) :
    (putStringHeader n empty).size ≤ header.length := by
  unfold putStringHeader
  split
  case isTrue => exact h.length_pos
  case isFalse hlarge =>
    cases h with
    | fixed h => exact absurd (Sized.lt_of_mem_countFrom h) hlarge
    | @marked b width h hn =>
      rw [List.length_cons, length_bigEndian]
      exact size_putLength8_le (Sized.width_of_marked h) hn

theorem size_putBinaryHeader_le (h : Sized.binary.Spells n header) :
    (putBinaryHeader n empty).size ≤ header.length := by
  cases h with
  | fixed h => cases h
  | @marked b width h hn =>
    rw [List.length_cons, length_bigEndian]
    exact size_putLength8_le (Sized.width_of_marked h) hn

theorem size_putArrayHeader_le (h : Sized.array.Spells n header) :
    (putArrayHeader n empty).size ≤ header.length := by
  unfold putArrayHeader
  split
  case isTrue => exact h.length_pos
  case isFalse hlarge =>
    cases h with
    | fixed h => exact absurd (Sized.lt_of_mem_countFrom h) hlarge
    | @marked b width h hn =>
      rw [List.length_cons, length_bigEndian]
      exact size_putLength16_le (Sized.width_of_marked_parts (.inl rfl) h) hn

/-- Fewer entries than the header announces do not make it longer. -/
theorem size_putObjectHeader_le {m : Nat} (hm : m ≤ n) (h : Sized.object.Spells n header) :
    (putObjectHeader m empty).size ≤ header.length := by
  unfold putObjectHeader
  split
  case isTrue => exact h.length_pos
  case isFalse hlarge =>
    cases h with
    | fixed h => exact absurd (Nat.lt_of_le_of_lt hm (Sized.lt_of_mem_countFrom h)) hlarge
    | @marked b width h hn =>
      rw [List.length_cons, length_bigEndian]
      exact size_putLength16_le (Sized.width_of_marked_parts (.inr rfl) h)
        (Nat.lt_of_le_of_lt hm hn)

theorem size_putExtensionHeader_le (type : Int8) (h : Sized.extension.Spells n header) :
    (putExtensionHeader type n empty).size ≤ header.length + 1 := by
  unfold putExtensionHeader
  split
  case h_6 =>
    refine Nat.le_trans (size_put_le _ _) (Nat.add_le_add_right ?_ 1)
    cases h with
    | @fixed b h =>
      have hlengths : ∀ entry ∈ Sized.extension.fixed, entry.2 ∈ [1, 2, 4, 8, 16] := by decide
      have hn := hlengths _ h
      simp_all
    | @marked b width h hn =>
      rw [List.length_cons, length_bigEndian]
      exact size_putLength8_le (Sized.width_of_marked h) hn
  all_goals exact Nat.succ_le_succ h.length_pos

end

/-! ## Integers -/

theorem size_putUnsigned_le {n width : Nat}
    (hwidth : width = 1 ∨ width = 2 ∨ width = 4 ∨ width = 8) (hn : n < 256 ^ width) :
    (putUnsigned n empty).size ≤ width + 1 := by
  unfold putUnsigned
  split_ifs with hfix h8 h16 h32
  · exact Nat.le_add_left 1 width
  all_goals
    refine (size_putMarked ..).trans_le ?_
    rcases hwidth with rfl | rfl | rfl | rfl <;> omega

/-- An integer takes at most a byte more than a width that can hold it, in two's complement or
unsigned. -/
theorem size_putInt_le {i : Int} {width : Nat}
    (hwidth : width = 1 ∨ width = 2 ∨ width = 4 ∨ width = 8) (hmin : -2 ^ (8 * width - 1) ≤ i)
    (hmax : i < 256 ^ width) : (putInt i empty).size ≤ width + 1 := by
  unfold putInt
  split_ifs with h0 hfix h7 h15 h31
  · refine size_putUnsigned_le hwidth ((Int.toNat_lt h0).2 ?_)
    push_cast
    exact hmax
  · exact Nat.le_add_left 1 width
  all_goals
    refine (size_putMarked ..).trans_le ?_
    rcases hwidth with rfl | rfl | rfl | rfl <;> omega

/-! ## Values -/

theorem size_payload_le {f : Emission → Emission} {header bs : Bytes}
    (h : (f empty).size ≤ header.length) : ((f empty).put bs).size ≤ (header ++ bs).length := by
  rw [List.length_append]
  exact Nat.le_trans (size_put_le _ _) (Nat.add_le_add_right h _)

/-- The encoder never widens a number. -/
theorem size_ofValue_le_of_numberForm? {v : Value} {b : UInt8} {width bits : Nat}
    (h : v.numberForm? = some (b, width, bits)) : (ofValue v).size ≤ width + 1 := by
  cases v <;> cases h
  case float32 x => exact Nat.le_of_eq (size_putMarked ..)
  case float64 x => exact Nat.le_of_eq (size_putMarked ..)
  case uint8 n => exact size_putUnsigned_le (by decide) n.toNat_lt
  case uint16 n => exact size_putUnsigned_le (by decide) n.toNat_lt
  case uint32 n => exact size_putUnsigned_le (by decide) n.toNat_lt
  case uint64 n => exact size_putUnsigned_le (by decide) n.toNat_lt
  case int8 i =>
    have := i.toInt_lt
    exact size_putInt_le (by decide) i.le_toInt (by omega)
  case int16 i =>
    have := i.toInt_lt
    exact size_putInt_le (by decide) i.le_toInt (by omega)
  case int32 i =>
    have := i.toInt_lt
    exact size_putInt_le (by decide) i.le_toInt (by omega)
  case int64 i =>
    have := i.toInt_lt
    exact size_putInt_le (by decide) i.le_toInt (by omega)

theorem size_ofValue_le_of_atom {v : Value} {bs : Bytes} (h : Atom v bs) :
    (ofValue v).size ≤ bs.length := by
  cases h with
  | nil | no | yes => exact Nat.le_refl 1
  | @positive b h =>
    show (putUnsigned b.toNat empty).size ≤ 1
    have hsmall : b.toNat < 0x80 := UInt8.lt_iff_toNat_lt.1 h
    rw [putUnsigned, if_pos hsmall]
    exact Nat.le_refl 1
  | @negative b h =>
    show (putInt b.toInt8.toInt empty).size ≤ 1
    have hsmall : ∀ b : UInt8, 0xe0 ≤ b → -0x20 ≤ b.toInt8.toInt ∧ b.toInt8.toInt < 0 :=
      forall_byte (by decide +kernel)
    obtain ⟨hmin, hneg⟩ := hsmall b h
    rw [putInt, if_neg (Int.not_le.2 hneg), if_pos hmin]
    exact Nat.le_refl 1
  | @number v b width bits h =>
    rw [List.length_cons, length_bigEndian]
    exact size_ofValue_le_of_numberForm? h
  | string h => exact size_payload_le (size_putStringHeader_le h)
  | binary h => exact size_payload_le (size_putBinaryHeader_le h)
  | @extension type data header h =>
    have hsize := size_put_le data (putExtensionHeader type data.length empty)
    have hheader := size_putExtensionHeader_le type h
    show (put data (putExtensionHeader type data.length empty)).size ≤ _
    rw [List.length_append, List.length_cons]
    omega

theorem size_ofItems_le (vs : List Value) :
    (ofItems vs).size ≤ (vs.map fun v => (ofValue v).size).sum := by
  induction vs with
  | nil => exact Nat.le_refl 0
  | cons v vs ih =>
    rw [ofItems_cons, List.map_cons, List.sum_cons]
    exact Nat.le_trans (size_append_le _ _) (Nat.add_le_add_left ih _)

theorem size_ofEntries_le (es : List (Value × Value)) :
    (ofEntries es).size ≤ (es.map fun e => (ofValue e.1).size + (ofValue e.2).size).sum := by
  induction es with
  | nil => exact Nat.le_refl 0
  | cons e es ih =>
    have hkey := size_append_le (ofValue e.1) (ofValue e.2 ++ ofEntries es)
    have hvalue := size_append_le (ofValue e.2) (ofEntries es)
    rw [ofEntries_cons, List.map_cons, List.sum_cons]
    omega

/-- What the encoder writes for a value is no longer than anything that encodes it. -/
theorem size_ofValue_le {depth deepest : Nat} {v : Value} {bs : Bytes}
    (h : Encodes depth v bs deepest) : (ofValue v).size ≤ bs.length := by
  induction h with
  | atom h => exact size_ofValue_le_of_atom h
  | @array depth header items hheader hitems ih =>
    have hparts : ((items.map Part.value).map fun v => (ofValue v).size).sum ≤
        (items.map fun part => part.bytes.length).sum := by
      rw [List.map_map]
      exact List.sum_le_sum ih
    rw [ofValue_array, List.length_map, List.length_append, Part.length_bytesOf]
    calc (putArrayHeader items.length empty ++ ofItems (items.map Part.value)).size
      _ ≤ (putArrayHeader items.length empty).size + (ofItems (items.map Part.value)).size :=
        size_append_le _ _
      _ ≤ header.length + (items.map fun part => part.bytes.length).sum :=
        Nat.add_le_add (size_putArrayHeader_le hheader) (Nat.le_trans (size_ofItems_le _) hparts)
  | @object depth header pairs _ hheader hparts hwins ih =>
    obtain rfl := hwins.eq_ofPairs
    rw [Part.forall_mem_ofPairs] at ih
    -- Pairs that do not count make what was decoded longer, but not what is written for it.
    let entries := SortedEntries.ofPairs Value.cmp (Part.entriesOf pairs)
    let weight (e : Value × Value) : Nat := (ofValue e.1).size + (ofValue e.2).size
    have hlength : entries.length ≤ pairs.length := Part.length_ofPairs_entriesOf_le pairs
    have hentries : (ofEntries entries).size ≤
        (pairs.map fun pair => pair.1.bytes.length + pair.2.bytes.length).sum :=
      calc (ofEntries entries).size
        _ ≤ (entries.map weight).sum := size_ofEntries_le entries
        _ ≤ ((Part.entriesOf pairs).map weight).sum := SortedEntries.sum_ofPairs_le weight _
        _ = (pairs.map fun pair => weight (pair.1.value, pair.2.value)).sum := by
          rw [Part.entriesOf, List.map_map]
          rfl
        _ ≤ (pairs.map fun pair => pair.1.bytes.length + pair.2.bytes.length).sum :=
          List.sum_le_sum fun pair hpair => Nat.add_le_add (ih pair hpair).1 (ih pair hpair).2
    show (ofValue (.object entries)).size ≤ _
    rw [ofValue_object, List.length_append, Part.length_bytesOf_ofPairs]
    calc (putObjectHeader entries.length empty ++ ofEntries entries).size
      _ ≤ (putObjectHeader entries.length empty).size + (ofEntries entries).size :=
        size_append_le _ _
      _ ≤ header.length + (pairs.map fun pair => pair.1.bytes.length + pair.2.bytes.length).sum :=
        Nat.add_le_add (size_putObjectHeader_le hlength hheader) hentries

end Emission

/-! ## What a derivation bounds -/

theorem Atom.isFlat {v : Value} {bs : Bytes} (h : Atom v bs) : v.isFlat := by
  cases h with
  | number h => cases v <;> first | rfl | cases h
  | _ => rfl

namespace Encodes

variable {depth deepest : Nat} {v : Value} {bs : Bytes}

/-- The lengths in a value that has an encoding fit in 32 bits. -/
theorem encodable (h : Encodes depth v bs deepest) : v.Encodable := by
  induction h with
  | @atom depth v bs h =>
    refine (Value.everywhere_of_isFlat h.isFlat).2 ?_
    cases h with
    | nil | no | yes | positive h | negative h => exact Nat.two_pow_pos 32
    | number h => cases v <;> first | exact Nat.two_pow_pos 32 | cases h
    | string h | binary h | extension h => exact h.lt
  | array hheader hitems ih =>
    refine Value.everywhere_array.2 ⟨?_, List.forall_mem_map.2 ih⟩
    show (List.map _ _).length < 2 ^ 32
    rw [List.length_map]
    exact hheader.lt
  | @object depth header pairs _ hheader hparts hwins ih =>
    obtain rfl := hwins.eq_ofPairs
    rw [Part.forall_mem_ofPairs] at ih
    refine Value.everywhere_object.2 ⟨?_, fun e he => ?_⟩
    · exact Nat.lt_of_le_of_lt (Part.length_ofPairs_entriesOf_le pairs) hheader.lt
    · obtain ⟨pair, hpair, rfl⟩ := List.mem_map.1 (SortedEntries.mem_of_mem_ofPairs he)
      exact ih pair hpair

/-- A value is no deeper than a derivation of it. -/
theorem add_depth_le (h : Encodes depth v bs deepest) : depth + v.depth ≤ deepest := by
  induction h with
  | @atom depth v bs h =>
    have hdepth : v.depth = 0 := by
      have hflat := h.isFlat
      cases v <;> first | rfl | cases hflat
    rw [hdepth]
    exact Nat.le_refl depth
  | @array depth header items hheader hitems ih =>
    have hroot := Part.le_deepestOf depth items
    have hparts : ∀ v ∈ items.map Part.value, v.depth < Part.deepestOf depth items - depth := by
      intro v hv
      obtain ⟨part, hpart, rfl⟩ := List.mem_map.1 hv
      have hle : part.deepest ≤ Part.deepestOf depth items := Part.deepest_le_deepestOf hpart
      have := ih part hpart
      omega
    have := Value.depth_array_le hparts
    omega
  | @object depth header pairs _ hheader hparts hwins ih =>
    obtain rfl := hwins.eq_ofPairs
    have hroot := Part.le_deepestOf depth (Part.ofPairs pairs)
    have hpart : ∀ part ∈ Part.ofPairs pairs,
        part.value.depth < Part.deepestOf depth (Part.ofPairs pairs) - depth := by
      intro part hpart
      have hle : part.deepest ≤ Part.deepestOf depth (Part.ofPairs pairs) :=
        Part.deepest_le_deepestOf hpart
      have := ih part hpart
      omega
    rw [Part.forall_mem_ofPairs] at hpart
    have hentries : ∀ e ∈ SortedEntries.ofPairs Value.cmp (Part.entriesOf pairs),
        e.1.depth < Part.deepestOf depth (Part.ofPairs pairs) - depth ∧
          e.2.depth < Part.deepestOf depth (Part.ofPairs pairs) - depth := by
      intro e he
      obtain ⟨pair, hpair, rfl⟩ := List.mem_map.1 (SortedEntries.mem_of_mem_ofPairs he)
      exact hpart pair hpair
    have := Value.depth_object_le hentries
    omega

end Encodes

namespace Emission

/-! ## Widths of integers -/

/-- What is written for a value does not depend on the widths of its integers. -/
theorem ofValue_of_same {v w : Value} (h : v.Same w) : ofValue v = ofValue w := by
  refine Value.Same.induction ?int ?flat ?array ?object h
  case int =>
    intro v w i hv hw
    rw [ofValue_of_int? hv, ofValue_of_int? hw]
  case flat => exact fun v hv => rfl
  case array =>
    intro vs ws h
    have hitems : ofItems vs = ofItems ws := by
      induction h with
      | nil => rfl
      | cons hv _ ih => rw [ofItems_cons, ofItems_cons, hv, ih]
    rw [ofValue_array, ofValue_array, hitems, h.length_eq]
  case object =>
    intro es fs h
    have hentries : ofEntries es = ofEntries fs := by
      induction h with
      | nil => rfl
      | cons he _ ih => rw [ofEntries_cons, ofEntries_cons, he.1, he.2, ih]
    rw [ofValue_object, ofValue_object, hentries, h.length_eq]

end Emission

/-! ## Byte strings -/

theorem size_ofValue_le_of_decode {maxDepth n : Nat} {bs : Bytes} {v : Value}
    (h : decode maxDepth bs = .ok (v, n)) : (Emission.ofValue v).size ≤ n := by
  obtain ⟨hn, deepest, -, hencodes⟩ := encodes_of_decode h
  have hsize := Emission.size_ofValue_le hencodes
  rwa [List.length_take_of_le hn] at hsize

/-- What was decoded encodes, to no more bytes than it was decoded from. With the same bound
this canonical encoding decodes to the value up to the widths of its integers, which encodes to the
same bytes again, and none of the byte strings that decode to such a value is shorter. -/
theorem encode_of_decode {maxDepth n : Nat} {bs : Bytes} {v : Value}
    (h : decode maxDepth bs = .ok (v, n)) :
    ∃ canonical w, encode v = .ok canonical ∧ canonical.length ≤ n ∧
      decode maxDepth canonical = .ok (w, canonical.length) ∧ w.Same v ∧ encode w = .ok canonical ∧
      ∀ maxDepth' bs' v' n', v'.Same v → decode maxDepth' bs' = .ok (v', n') →
        canonical.length ≤ n' := by
  have hshortest : ∀ maxDepth' bs' v' n', v'.Same v → decode maxDepth' bs' = .ok (v', n') →
      (Emission.ofValue v).bytes.length ≤ n' := by
    intro maxDepth' bs' v' n' hsame h'
    rw [← Emission.ofValue_of_same hsame]
    exact size_ofValue_le_of_decode h'
  obtain ⟨-, deepest, hdeepest, hencodes⟩ := encodes_of_decode h
  have hdepth := hencodes.add_depth_le
  obtain ⟨hnone, hreads⟩ := Emission.conveys_ofValue hencodes.encodable (ordered_of_decode h)
    (show v.depth < maxDepth + 1 by omega)
  have hsame : v.narrow.Same v := v.same_narrow.symm
  have hdecode := decode_of_reads hreads []
  rw [List.append_nil] at hdecode
  refine ⟨_, v.narrow, encode_eq hnone, size_ofValue_le_of_decode h, hdecode, hsame, ?_,
    hshortest⟩
  rw [encode, Emission.ofValue_of_same hsame]
  exact encode_eq hnone

/-- An object whose header and keys are wider than they need be, and whose second key replaces the
first. -/
theorem encode_of_decode_wide :
    ∃ canonical w, encode (.object [(.int8 1, .bool false)]) = .ok canonical ∧
      canonical.length ≤ 9 ∧ decode 1 canonical = .ok (w, canonical.length) ∧
      w.Same (.object [(.int8 1, .bool false)]) ∧ encode w = .ok canonical ∧
      ∀ maxDepth' bs' v' n', v'.Same (.object [(.int8 1, .bool false)]) →
        decode maxDepth' bs' = .ok (v', n') → canonical.length ≤ n' := by
  have h : decode 1 [0xde, 0x00, 0x02, 0xcc, 0x01, 0xc0, 0xd0, 0x01, 0xc2] =
      .ok (.object [(.int8 1, .bool false)], 9) := rfl
  exact encode_of_decode h

end MessagePack
