import MessagePack.Proofs.Wire.Grammar
import MessagePack.Proofs.Wire.Header
import MessagePack.Proofs.Wire.Truncation

/-!
# Decoding accepts the grammar

A value is read from some bytes exactly when these encode it and no node of the derivation is nested
too deep. What a sequence of steps reads splits into what each of them reads, so both directions go
by the steps that decoding is made of.

* `encodes_of_reads`, `reads_of_encodes`: values.
* `decode_iff_encodes`: decoding a byte string.
-/

namespace MessagePack

open Reading

/-! ## What is read -/

namespace Reads

variable {α β : Type} {x : Reading Slice α} {f : α → Reading Slice β}

/-- What a sequence of steps reads is what the first reads and then what the second reads. -/
theorem of_bind (hx : Local x) (hf : ∀ a, Local (f a)) {bs : Bytes} {b : β}
    (h : Reads (x >>= f) bs b) :
    ∃ cs ds a, bs = cs ++ ds ∧ Reads x cs a ∧ Reads (f a) ds b := by
  obtain ⟨a, r, hfirst, hrest⟩ := of_bind_ok (h [] 0)
  obtain ⟨cs, hcs, hreads⟩ := hx _ a r hfirst
  obtain ⟨ds, hds, hreads'⟩ := hf a r b _ hrest
  rw [List.append_nil] at hcs hds
  exact ⟨cs, ds, a, hds ▸ hcs, hreads, hreads'⟩

theorem of_pure {a b : α} {bs : Bytes} (h : Reads (pure a) bs b) : bs = [] ∧ b = a := by
  obtain ⟨⟨⟩, hrest⟩ := Prod.mk.inj (h [] 0)
  have hnil := congrArg Slice.rest hrest
  rw [List.append_nil] at hnil
  exact ⟨hnil, rfl⟩

theorem of_map (hx : Local x) {g : α → β} {bs : Bytes} {b : β}
    (h : Reads (x >>= fun a => pure (g a)) bs b) : ∃ a, Reads x bs a ∧ b = g a := by
  obtain ⟨cs, ds, a, rfl, hreads, hpure⟩ := h.of_bind hx fun a => Local.pure (g a)
  obtain ⟨rfl, rfl⟩ := hpure.of_pure
  exact ⟨a, by rwa [List.append_nil], rfl⟩

theorem of_readField {n : Nat} {bs cs : Bytes} (h : Reads (ofRead (Readable.readField n)) bs cs) :
    bs.length = n ∧ cs = bs := by
  have hrun := h [] 0
  rw [List.append_nil] at hrun
  by_cases hn : n ≤ bs.length
  · have hread : ofRead (Readable.readField n) (⟨bs, 0⟩ : Slice) =
        (.ok (bs.take n), ⟨bs.drop n, 0 + n⟩) := by
      simp [ofRead, Readable.readField, Slice.read, splitFront_of_le hn]
    obtain ⟨⟨⟩, hrest⟩ := Prod.mk.inj (hrun.symm.trans hread)
    have hle := List.drop_eq_nil_iff.1 (congrArg Slice.rest hrest).symm
    exact ⟨Nat.le_antisymm hle hn, List.take_of_length_le hle⟩
  · simp [ofRead, Readable.readField, Slice.read, splitFront_of_lt (Nat.lt_of_not_le hn)] at hrun

theorem of_readPayload {n : Nat} {bs cs : Bytes}
    (h : Reads (ofRead (Readable.readPayload n)) bs cs) : bs.length = n ∧ cs = bs :=
  of_readField h

theorem of_readByte {bs : Bytes} {b : UInt8} (h : Reads (ofRead Readable.readByte) bs b) :
    bs = [b] := by
  cases bs with
  | nil => cases (Prod.mk.inj (h [] 0)).1
  | cons b' bs =>
    obtain ⟨⟨⟩, hrest⟩ := Prod.mk.inj ((h [] 0).symm.trans (readByte b' (bs ++ []) 0))
    rw [List.append_nil] at hrest
    exact congrArg (List.cons b) (congrArg Slice.rest hrest).symm

theorem of_readLead {ofByte? : UInt8 → Option α} {bs : Bytes} {a : α}
    (h : Reads (MessagePack.readLead ofByte?) bs a) : ∃ b, bs = [b] ∧ ofByte? b = some a := by
  obtain ⟨b, hb, hrest, -⟩ := readLead_ok (h [] 0)
  rw [List.append_nil] at hrest
  exact ⟨b, hrest, hb⟩

end Reads

/-! ## Lengths -/

/-- The bytes of a field spell a length; none do if the length is in the tag. -/
def LengthField.Spells (n : Nat) (bs : Bytes) : LengthField → Prop
  | inTag m => m = n ∧ bs = []
  | after width => n < 256 ^ width ∧ bs = bigEndian width n

theorem reads_readLength_iff {length : LengthField} {n : Nat} {bs : Bytes} :
    Reads (readLength length) bs n ↔ length.Spells n bs := by
  cases length with
  | inTag m =>
    constructor
    · intro h
      obtain ⟨rfl, rfl⟩ := Reads.of_pure h
      exact ⟨rfl, rfl⟩
    · rintro ⟨rfl, rfl⟩
      exact Reads.pure m
  | after width =>
    constructor
    · intro h
      obtain ⟨cs, hread, rfl⟩ := Reads.of_map (local_read width) h
      obtain ⟨rfl, rfl⟩ := hread.of_readField
      exact ⟨ofBigEndian_lt cs, (bigEndian_ofBigEndian cs).symm⟩
    · rintro ⟨hn, rfl⟩
      exact Reads.readLength hn

namespace Sized

/-- The tag of a value of the sort. -/
def tag (length : LengthField) : Sized → Tag
  | string => .string length
  | binary => .binary length
  | extension => .extension length
  | array => .array length
  | object => .object length

/-- The header of a value of the sort. -/
def header (n : Nat) : Sized → Header
  | string => .string n
  | binary => .binary n
  | extension => .extension n
  | array => .array n
  | object => .object n

end Sized

/-- The sort of a tag that has a length, and where the length is. -/
def Tag.sized? : Tag → Option (Sized × LengthField)
  | string length => some (.string, length)
  | binary length => some (.binary, length)
  | extension length => some (.extension, length)
  | array length => some (.array, length)
  | object length => some (.object, length)
  | whole _ | scalar _ => none

theorem Tag.sized?_eq_some {tag : Tag} {sort : Sized} {length : LengthField} :
    tag.sized? = some (sort, length) ↔ tag = sort.tag length := by
  cases tag <;> cases sort <;> simp [sized?, Sized.tag]

/-- The grammar lists the byte for a sort, with its length or the width of its length field. -/
def Sized.Lists (sort : Sized) (b : UInt8) : LengthField → Prop
  | .inTag n => (b, n) ∈ sort.fixed
  | .after width => (b, width) ∈ sort.marked

instance (sort : Sized) (b : UInt8) (length : LengthField) : Decidable (sort.Lists b length) := by
  cases length <;> exact inferInstanceAs (Decidable (_ ∈ _))

/-- The bytes with a length are those that the grammar lists. -/
theorem Sized.ofByte?_eq_some_iff {sort : Sized} {b : UInt8} {length : LengthField} :
    Tag.ofByte? b = some (sort.tag length) ↔ sort.Lists b length := by
  have hsized : Tag.ofByte? b = some (sort.tag length) ↔
      (Tag.ofByte? b).bind Tag.sized? = some (sort, length) := by
    rw [Option.bind_eq_some_iff]
    constructor
    · exact fun h => ⟨_, h, Tag.sized?_eq_some.2 rfl⟩
    · rintro ⟨tag, h, htag⟩
      rw [h, Tag.sized?_eq_some.1 htag]
  rw [hsized]
  -- Every byte is checked in one direction, every entry of the tables in the other.
  constructor
  · have hall : ∀ b, ∀ found ∈ (Tag.ofByte? b).bind Tag.sized?, found.1.Lists b found.2 :=
      forall_byte (by decide +kernel)
    exact fun h => hall b _ h
  · have hfixed : ∀ sort : Sized, ∀ entry ∈ sort.fixed,
        (Tag.ofByte? entry.1).bind Tag.sized? = some (sort, .inTag entry.2) := by
      intro sort
      cases sort <;> decide +kernel
    have hmarked : ∀ sort : Sized, ∀ entry ∈ sort.marked,
        (Tag.ofByte? entry.1).bind Tag.sized? = some (sort, .after entry.2) := by
      intro sort
      cases sort <;> decide +kernel
    intro h
    cases length with
    | inTag n => exact hfixed sort _ h
    | after width => exact hmarked sort _ h

/-- A length is announced by a byte that the grammar lists and, if that has one, a field. -/
theorem Sized.spells_iff {sort : Sized} {n : Nat} {bs : Bytes} :
    sort.Spells n bs ↔
      ∃ b rest length, bs = b :: rest ∧ sort.Lists b length ∧ length.Spells n rest := by
  constructor
  · rintro (h | ⟨h, hn⟩)
    · exact ⟨_, [], .inTag n, rfl, h, rfl, rfl⟩
    · exact ⟨_, _, .after _, rfl, h, hn, rfl⟩
  · rintro ⟨b, rest, length, rfl, hlists, hspells⟩
    cases length with
    | inTag m =>
      obtain ⟨rfl, rfl⟩ := hspells
      exact .fixed hlists
    | after width =>
      obtain ⟨hn, rfl⟩ := hspells
      exact .marked hlists hn

theorem readHeaderOf_sized (sort : Sized) (length : LengthField) :
    (readHeaderOf (sort.tag length) : Reading Slice Header) =
      readLength length >>= fun n => pure (sort.header n) := by
  cases sort <;> rfl

theorem local_readHeaderOf (tag : Tag) : Local (readHeaderOf tag) := by
  cases tag with
  | whole v | scalar s => exact Local.pure _
  | string length | binary length | extension length | array length | object length =>
    exact (local_readLength length).map _

/-- The header of a value with a length is read from the bytes that spell it in the grammar. -/
theorem Reads.sizedHeader {sort : Sized} {n : Nat} {bs : Bytes} (h : sort.Spells n bs) :
    Reads readHeader bs (sort.header n) := by
  obtain ⟨b, rest, length, rfl, hlists, hspells⟩ := Sized.spells_iff.1 h
  have hrest : Reads (readHeaderOf (sort.tag length)) rest (sort.header n) := by
    rw [readHeaderOf_sized]
    exact (reads_readLength_iff.2 hspells).map _
  rw [readHeader_eq]
  exact (Reads.readLead (Sized.ofByte?_eq_some_iff.2 hlists)).bind hrest

/-- What is read as a header: a byte that is a value, the marker of a number, or a length. -/
theorem Reads.cases_readHeader {bs : Bytes} {header : Header} (h : Reads readHeader bs header) :
    (∃ b v, bs = [b] ∧ header = .whole v ∧ Tag.ofByte? b = some (.whole v)) ∨
      (∃ b s, bs = [b] ∧ header = .scalar s ∧ Tag.ofByte? b = some (.scalar s)) ∨
      ∃ sort n, header = Sized.header n sort ∧ sort.Spells n bs := by
  rw [readHeader_eq] at h
  obtain ⟨cs, rest, tag, rfl, hlead, hrest⟩ := h.of_bind (local_readLead _) local_readHeaderOf
  obtain ⟨b, rfl, hb⟩ := hlead.of_readLead
  have hsized : ∀ sort length, tag = Sized.tag length sort →
      ∃ sort n, header = Sized.header n sort ∧ sort.Spells n ([b] ++ rest) := by
    rintro sort length rfl
    rw [readHeaderOf_sized] at hrest
    obtain ⟨n, hlength, rfl⟩ := hrest.of_map (local_readLength length)
    exact ⟨sort, n, rfl, Sized.spells_iff.2
      ⟨b, rest, length, rfl, Sized.ofByte?_eq_some_iff.1 hb, reads_readLength_iff.1 hlength⟩⟩
  cases tag with
  | whole v =>
    obtain ⟨rfl, rfl⟩ := hrest.of_pure
    exact .inl ⟨b, v, rfl, rfl, hb⟩
  | scalar s =>
    obtain ⟨rfl, rfl⟩ := hrest.of_pure
    exact .inr (.inl ⟨b, s, rfl, rfl, hb⟩)
  | string length => exact .inr (.inr (hsized .string length rfl))
  | binary length => exact .inr (.inr (hsized .binary length rfl))
  | extension length => exact .inr (.inr (hsized .extension length rfl))
  | array length => exact .inr (.inr (hsized .array length rfl))
  | object length => exact .inr (.inr (hsized .object length rfl))

/-! ## Values without parts -/

/-- A byte that is a value by itself. -/
theorem atom_of_ofByte? {b : UInt8} {v : Value} (h : Tag.ofByte? b = some (.whole v)) :
    Atom v [b] := by
  have hmarker : Tag.ofMarker? b = some (.whole v) → Atom v [b] := by
    intro h
    unfold Tag.ofMarker? at h
    split at h <;> cases h
    · exact .nil
    · exact .no
    · exact .yes
  unfold Tag.ofByte? at h
  split_ifs at h with hpositive _ _ _ hlt
  · cases h
    exact .positive hpositive
  · cases h
  · cases h
  · cases h
  · exact hmarker h
  · cases h
    exact .negative (UInt8.not_lt.1 hlt)

/-- The byte that announces a number of the kind. -/
def Scalar.marker : Scalar → UInt8
  | float32 => 0xca
  | float64 => 0xcb
  | uint8 => 0xcc
  | uint16 => 0xcd
  | uint32 => 0xce
  | uint64 => 0xcf
  | int8 => 0xd0
  | int16 => 0xd1
  | int32 => 0xd2
  | int64 => 0xd3

theorem Scalar.ofByte?_eq_some_iff {b : UInt8} {s : Scalar} :
    Tag.ofByte? b = some (.scalar s) ↔ b = s.marker := by
  constructor
  · intro h
    have hmarker : Tag.ofMarker? b = some (.scalar s) → b = s.marker := by
      intro h
      unfold Tag.ofMarker? at h
      split at h <;> cases h <;> rfl
    unfold Tag.ofByte? at h
    split_ifs at h <;> first | exact hmarker h | cases h
  · rintro rfl
    cases s <;> rfl

/-- The bits of a number in the grammar are those of its kind. -/
theorem Scalar.numberForm?_ofBits {s : Scalar} {bits : Nat} (h : bits < 256 ^ s.size) :
    (s.ofBits bits).numberForm? = some (s.marker, s.size, bits) := by
  cases s with
  | float32 | uint32 | int32 =>
    exact congrArg (fun n => some (_, 4, n)) (UInt32.toNat_ofNat_of_lt' h)
  | float64 | uint64 | int64 =>
    exact congrArg (fun n => some (_, 8, n)) (UInt64.toNat_ofNat_of_lt' h)
  | uint8 | int8 => exact congrArg (fun n => some (_, 1, n)) (UInt8.toNat_ofNat_of_lt' h)
  | uint16 | int16 => exact congrArg (fun n => some (_, 2, n)) (UInt16.toNat_ofNat_of_lt' h)

theorem Scalar.ofBits_of_numberForm? {v : Value} {b : UInt8} {width bits : Nat}
    (h : v.numberForm? = some (b, width, bits)) :
    ∃ s : Scalar, b = s.marker ∧ width = s.size ∧ bits < 256 ^ width ∧ s.ofBits bits = v := by
  cases v <;> cases h
  case float32 x => exact ⟨.float32, rfl, rfl, x.bits.toNat_lt, by simp [ofBits, Binary32.ofBits]⟩
  case float64 x => exact ⟨.float64, rfl, rfl, x.bits.toNat_lt, by simp [ofBits, Binary64.ofBits]⟩
  case uint8 n => exact ⟨.uint8, rfl, rfl, n.toNat_lt, by simp [ofBits]⟩
  case uint16 n => exact ⟨.uint16, rfl, rfl, n.toNat_lt, by simp [ofBits]⟩
  case uint32 n => exact ⟨.uint32, rfl, rfl, n.toNat_lt, by simp [ofBits]⟩
  case uint64 n => exact ⟨.uint64, rfl, rfl, n.toNat_lt, by simp [ofBits]⟩
  case int8 i => exact ⟨.int8, rfl, rfl, i.toUInt8.toNat_lt, by simp [ofBits]⟩
  case int16 i => exact ⟨.int16, rfl, rfl, i.toUInt16.toNat_lt, by simp [ofBits]⟩
  case int32 i => exact ⟨.int32, rfl, rfl, i.toUInt32.toNat_lt, by simp [ofBits]⟩
  case int64 i => exact ⟨.int64, rfl, rfl, i.toUInt64.toNat_lt, by simp [ofBits]⟩

/-- The byte of a kind of number and a field of its size. -/
theorem atom_of_scalar {s : Scalar} {bs : Bytes} (h : bs.length = s.size) :
    Atom (s.value bs) ([s.marker] ++ bs) := by
  have hbits : ofBigEndian bs < 256 ^ s.size := h ▸ ofBigEndian_lt bs
  have hnumber : Atom (s.value bs) (s.marker :: bigEndian s.size (ofBigEndian bs)) :=
    .number (Scalar.numberForm?_ofBits hbits)
  rwa [← h, bigEndian_ofBigEndian] at hnumber

/-! ## Parts -/

section

variable {item : Reading Slice Value}

theorem Reads.readItems {parts : List Part} (h : ∀ part ∈ parts, Reads item part.bytes part.value)
    (seen : List Value) :
    Reads (MessagePack.readItems item parts.length seen) (Part.bytesOf parts)
      (seen.reverse ++ parts.map Part.value) := by
  induction parts generalizing seen with
  | nil =>
    rw [List.map_nil, List.append_nil]
    exact Reads.pure _
  | cons part parts ih =>
    obtain ⟨hpart, hparts⟩ := List.forall_mem_cons.1 h
    have hrest := ih hparts (part.value :: seen)
    rw [List.reverse_cons, List.append_assoc] at hrest
    rw [List.length_cons, readItems_succ]
    exact hpart.bind hrest

theorem Reads.readEntries {pairs : List (Part × Part)}
    (h : ∀ part ∈ Part.ofPairs pairs, Reads item part.bytes part.value)
    (entries : List (Value × Value)) :
    Reads (MessagePack.readEntries item pairs.length entries) (Part.bytesOf (Part.ofPairs pairs))
      (SortedEntries.insertAll Value.cmp (Part.entriesOf pairs) entries).reverse := by
  induction pairs generalizing entries with
  | nil => exact Reads.pure _
  | cons pair pairs ih =>
    obtain ⟨hkey, h⟩ := List.forall_mem_cons.1 h
    obtain ⟨hvalue, h⟩ := List.forall_mem_cons.1 h
    rw [List.length_cons, readEntries_succ]
    exact hkey.bind (hvalue.bind (ih h _))

variable (hitem : ∀ bs, Outcome item bs) {P : Part → Prop}
  (hpart : ∀ bs v, Reads item bs v → ∃ deepest, P ⟨v, bs, deepest⟩)

include hitem hpart

theorem Reads.of_readItems {n : Nat} {seen vs : List Value} {bs : Bytes}
    (h : Reads (MessagePack.readItems item n seen) bs vs) :
    ∃ parts : List Part, parts.length = n ∧ bs = Part.bytesOf parts ∧
      vs = seen.reverse ++ parts.map Part.value ∧ ∀ part ∈ parts, P part := by
  induction n generalizing seen bs with
  | zero =>
    obtain ⟨rfl, rfl⟩ := Reads.of_pure h
    exact ⟨[], rfl, rfl, (List.append_nil _).symm, List.forall_mem_nil _⟩
  | succ n ih =>
    rw [readItems_succ] at h
    obtain ⟨cs, ds, v, rfl, hread, hrest⟩ := h.of_bind (local_of_outcome hitem) fun v =>
      local_of_outcome (outcome_readItems hitem n (v :: seen))
    obtain ⟨parts, rfl, rfl, rfl, hparts⟩ := ih hrest
    obtain ⟨deepest, hv⟩ := hpart cs v hread
    refine ⟨⟨v, cs, deepest⟩ :: parts, rfl, rfl, ?_, List.forall_mem_cons.2 ⟨hv, hparts⟩⟩
    rw [List.reverse_cons, List.append_assoc]
    rfl

theorem Reads.of_readEntries {n : Nat} {entries es : List (Value × Value)} {bs : Bytes}
    (h : Reads (MessagePack.readEntries item n entries) bs es) :
    ∃ pairs : List (Part × Part), pairs.length = n ∧ bs = Part.bytesOf (Part.ofPairs pairs) ∧
      es = (SortedEntries.insertAll Value.cmp (Part.entriesOf pairs) entries).reverse ∧
      ∀ part ∈ Part.ofPairs pairs, P part := by
  induction n generalizing entries bs with
  | zero =>
    obtain ⟨rfl, rfl⟩ := Reads.of_pure h
    exact ⟨[], rfl, rfl, rfl, List.forall_mem_nil _⟩
  | succ n ih =>
    rw [readEntries_succ] at h
    obtain ⟨cs, ds, k, rfl, hkey, hrest⟩ := h.of_bind (local_of_outcome hitem) fun k =>
      local_of_outcome (outcome_bind hitem fun v => outcome_readEntries hitem n _)
    obtain ⟨cs', ds, v, rfl, hvalue, hrest⟩ := hrest.of_bind (local_of_outcome hitem) fun v =>
      local_of_outcome (outcome_readEntries hitem n _)
    obtain ⟨pairs, rfl, rfl, rfl, hpairs⟩ := ih hrest
    obtain ⟨deepest, hk⟩ := hpart cs k hkey
    obtain ⟨deepest', hv⟩ := hpart cs' v hvalue
    exact ⟨(⟨k, cs, deepest⟩, ⟨v, cs', deepest'⟩) :: pairs, rfl, rfl, rfl,
      List.forall_mem_cons.2 ⟨hk, List.forall_mem_cons.2 ⟨hv, hpairs⟩⟩⟩

end

/-! ## Values -/

/-- What is read as the body of a value with a length, after a header that spells that. -/
theorem encodes_of_readBody {item : Reading Slice Value} (hitem : ∀ bs, Outcome item bs)
    {depth bound : Nat} (hbound : depth < bound)
    (hpart : ∀ bs v, Reads item bs v →
      ∃ deepest, deepest < bound ∧ Encodes (depth + 1) v bs deepest)
    {sort : Sized} {n : Nat} {header body : Bytes} {v : Value} (hheader : sort.Spells n header)
    (h : Reads (readBody item (sort.header n)) body v) :
    ∃ deepest < bound, Encodes depth v (header ++ body) deepest := by
  cases sort with
  | string =>
    obtain ⟨bytes, hread, rfl⟩ := Reads.of_map (local_of_outcome (outcome_readPayload n)) h
    obtain ⟨rfl, rfl⟩ := hread.of_readPayload
    exact ⟨depth, hbound, .atom (.string hheader)⟩
  | binary =>
    obtain ⟨bytes, hread, rfl⟩ := Reads.of_map (local_of_outcome (outcome_readPayload n)) h
    obtain ⟨rfl, rfl⟩ := hread.of_readPayload
    exact ⟨depth, hbound, .atom (.binary hheader)⟩
  | extension =>
    obtain ⟨_, _, type, rfl, htype, hdata⟩ := Reads.of_bind (local_of_outcome outcome_readByte)
      (fun type => local_of_outcome (outcome_map (outcome_readPayload n) _)) h
    obtain ⟨data, hread, rfl⟩ := Reads.of_map (local_of_outcome (outcome_readPayload n)) hdata
    obtain ⟨rfl, rfl⟩ := hread.of_readPayload
    obtain rfl := htype.of_readByte
    exact ⟨depth, hbound, .atom (.extension hheader)⟩
  | array =>
    obtain ⟨items, hread, rfl⟩ := Reads.of_map (local_of_outcome (outcome_readItems hitem n [])) h
    obtain ⟨parts, rfl, rfl, rfl, hparts⟩ := Reads.of_readItems hitem
      (P := fun part => part.deepest < bound ∧
        Encodes (depth + 1) part.value part.bytes part.deepest) hpart hread
    exact ⟨_, Part.deepestOf_lt hbound fun part hmem => (hparts part hmem).1,
      .array hheader fun part hmem => (hparts part hmem).2⟩
  | object =>
    obtain ⟨entries, hread, rfl⟩ :=
      Reads.of_map (local_of_outcome (outcome_readEntries hitem n [])) h
    obtain ⟨pairs, rfl, rfl, rfl, hparts⟩ := Reads.of_readEntries hitem
      (P := fun part => part.deepest < bound ∧
        Encodes (depth + 1) part.value part.bytes part.deepest) hpart hread
    exact ⟨_, Part.deepestOf_lt hbound fun part hmem => (hparts part hmem).1,
      .object hheader (fun part hmem => (hparts part hmem).2) (SortedEntries.lastWins_ofPairs _)⟩

/-- What is read as a value encodes it, and no node lies deeper than the levels reach. -/
theorem encodes_of_reads {levels depth : Nat} {bs : Bytes} {v : Value}
    (h : Reads (readValue levels) bs v) :
    ∃ deepest < depth + levels, Encodes depth v bs deepest := by
  -- By the levels: what is inside is read with one level less, one deeper.
  induction levels generalizing depth bs v with
  | zero => cases (Prod.mk.inj (h [] 0)).1
  | succ levels ih =>
    have hdepth : depth < depth + (levels + 1) := Nat.lt_add_of_pos_right levels.succ_pos
    have hpart : ∀ bs v, Reads (readValue levels) bs v →
        ∃ deepest, deepest < depth + (levels + 1) ∧ Encodes (depth + 1) v bs deepest := by
      intro bs v h
      obtain ⟨deepest, hdeepest, hv⟩ :
        ∃ deepest < depth + 1 + levels, Encodes (depth + 1) v bs deepest := ih h
      exact ⟨deepest, by omega, hv⟩
    rw [readValue_succ] at h
    obtain ⟨_, body, header, rfl, hheader, hbody⟩ :=
      h.of_bind (local_of_outcome outcome_readHeader) fun header =>
        local_of_outcome (outcome_readBody (outcome_readValue levels) header)
    rcases hheader.cases_readHeader with
      ⟨b, w, rfl, rfl, hb⟩ | ⟨b, s, rfl, rfl, hb⟩ | ⟨sort, n, rfl, hspells⟩
    · obtain ⟨rfl, rfl⟩ := hbody.of_pure
      exact ⟨depth, hdepth, .atom (atom_of_ofByte? hb)⟩
    · obtain ⟨ds, hread, rfl⟩ := Reads.of_map (local_read s.size) hbody
      obtain ⟨hsize, rfl⟩ := hread.of_readField
      obtain rfl := Scalar.ofByte?_eq_some_iff.1 hb
      exact ⟨depth, hdepth, .atom (atom_of_scalar hsize)⟩
    · exact encodes_of_readBody (outcome_readValue levels) hdepth hpart hspells hbody

/-- What encodes a value without parts is read as that value. -/
theorem reads_of_atom {levels : Nat} {v : Value} {bs : Bytes} (h : Atom v bs) :
    Reads (readValue (levels + 1)) bs v := by
  cases h with
  | nil | no | yes => exact Reads.whole rfl
  | @positive b h =>
    refine Reads.whole ?_
    rw [Tag.ofByte?, if_pos (show b < Marker.fixObject from h)]
  | negative h => exact Reads.whole (Emission.ofByte?_of_neg h)
  | number h =>
    obtain ⟨s, rfl, rfl, hbits, rfl⟩ := Scalar.ofBits_of_numberForm? h
    exact Reads.scalar (Scalar.ofByte?_eq_some_iff.2 rfl) hbits
  | string h =>
    rw [readValue_succ]
    exact (Reads.sizedHeader h).bind ((Reads.readPayload _).map _)
  | binary h =>
    rw [readValue_succ]
    exact (Reads.sizedHeader h).bind ((Reads.readPayload _).map _)
  | extension h =>
    rw [readValue_succ]
    exact (Reads.sizedHeader h).bind (Reads.extensionBody _ _)

/-- What encodes a value is read as that value if the levels reach down to its deepest node. -/
theorem reads_of_encodes {levels depth deepest : Nat} {bs : Bytes} {v : Value}
    (h : Encodes depth v bs deepest) (hlevels : deepest < depth + levels) :
    Reads (readValue levels) bs v := by
  -- By the derivation: its root is not below its deepest node, so there is a level for it.
  induction h generalizing levels with
  | @atom depth v bs h =>
    obtain ⟨levels, rfl⟩ : ∃ l, levels = l + 1 := ⟨levels - 1, by omega⟩
    exact reads_of_atom h
  | @array depth header items hheader hitems ih =>
    have hdepth := Part.le_deepestOf depth items
    obtain ⟨levels, rfl⟩ : ∃ l, levels = l + 1 := ⟨levels - 1, by omega⟩
    have hreads : ∀ part ∈ items, Reads (readValue levels) part.bytes part.value := by
      intro part hmem
      have hle : part.deepest ≤ Part.deepestOf depth items := Part.deepest_le_deepestOf hmem
      exact ih part hmem (by omega)
    rw [readValue_succ]
    exact (Reads.sizedHeader hheader).bind ((Reads.readItems hreads []).map Value.array)
  | @object depth header pairs entries hheader hparts hentries ih =>
    obtain rfl := hentries.eq_ofPairs
    have hdepth := Part.le_deepestOf depth (Part.ofPairs pairs)
    obtain ⟨levels, rfl⟩ : ∃ l, levels = l + 1 := ⟨levels - 1, by omega⟩
    have hreads : ∀ part ∈ Part.ofPairs pairs,
        Reads (readValue levels) part.bytes part.value := by
      intro part hmem
      have hle : part.deepest ≤ Part.deepestOf depth (Part.ofPairs pairs) :=
        Part.deepest_le_deepestOf hmem
      exact ih part hmem (by omega)
    rw [readValue_succ]
    exact (Reads.sizedHeader hheader).bind ((Reads.readEntries hreads []).map Value.object)

/-! ## Byte strings -/

theorem encodes_of_decode {maxDepth n : Nat} {bs : Bytes} {v : Value}
    (h : decode maxDepth bs = .ok (v, n)) :
    n ≤ bs.length ∧ ∃ deepest ≤ maxDepth, Encodes 0 v (bs.take n) deepest := by
  obtain ⟨front, rest, rfl, rfl, hreads⟩ := reads_of_decode h
  obtain ⟨deepest, hdeepest, hencodes⟩ :
    ∃ deepest < 0 + (maxDepth + 1), Encodes 0 v front deepest := encodes_of_reads hreads
  refine ⟨?_, deepest, by omega, ?_⟩
  · rw [List.length_append]
    exact Nat.le_add_right _ _
  · rwa [List.take_left]

/-- Decoding gives a value and a number of bytes exactly when the byte string has so many bytes and
these encode the value, with no node deeper than the bound. -/
theorem decode_iff_encodes (maxDepth : Nat) (bs : Bytes) (v : Value) (n : Nat) :
    decode maxDepth bs = .ok (v, n) ↔
      n ≤ bs.length ∧ ∃ deepest ≤ maxDepth, Encodes 0 v (bs.take n) deepest := by
  constructor
  · exact encodes_of_decode
  · rintro ⟨hn, deepest, hdeepest, h⟩
    have hreads : Reads (readAny maxDepth) (bs.take n) v := reads_of_encodes h (by omega)
    have hdecode := decode_of_reads hreads (bs.drop n)
    rwa [List.take_append_drop, List.length_take_of_le hn] at hdecode

end MessagePack
