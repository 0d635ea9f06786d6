import MessagePack.Proofs.Wire.Encoding
import MessagePack.Proofs.Wire.Shortest
import MessagePack.Proofs.Wire.Skipping

/-!
# Headers without contents

The encoder writes the header of a string, a binary, an extension, an array or an object by itself,
and a scan passes over it by itself. For every length of 32 bits the two agree, and no shorter
header of the sort says the same; a longer length is refused before anything is written.

* `Sized.step`, `Sized.extent`: the header of a sort as it is written, and what it says.
* `Sized.header_agrees`: writing and reading, for every sort and length.
-/

namespace MessagePack

open Reading

theorem Reads.of_skip {n : Nat} {bs : Bytes} (h : Reads (ofRead (Readable.skip n)) bs ()) :
    bs.length = n := by
  rw [skip_eq_void] at h
  obtain ⟨cs, hread, -⟩ := Reads.of_map (local_read n) h
  exact hread.of_readField.1

namespace Sized

variable {sort : Sized} {n : Nat} {bs : Bytes}

/-! ## Reading -/

/-- What a header of the sort says about what follows. -/
def extent (n : Nat) : Sized → Extent
  | string | binary | extension => ⟨n, 0⟩
  | array => ⟨0, n⟩
  | object => ⟨0, 2 * n⟩

/-- The number of bytes between the length and the contents: the type of an extension is there. -/
def typeWidth : Sized → Nat
  | extension => 1
  | string | binary | array | object => 0

/-- The bytes begin like a value of the sort. -/
def Begins (sort : Sized) (bs : Bytes) : Prop :=
  ∃ b rest length, bs = b :: rest ∧ Tag.ofByte? b = some (sort.tag length)

theorem extent_inj {m : Nat} (h : sort.extent m = sort.extent n) : m = n := by
  cases sort with
  | string | binary | extension | array =>
    cases h
    rfl
  | object =>
    have hchildren : 2 * m = 2 * n := congrArg Extent.children h
    omega

theorem readExtentOf_sized (sort : Sized) (length : LengthField) :
    (readExtentOf (sort.tag length).span : Reading Slice Extent) =
      readLength length >>= fun n => ofRead (Readable.skip sort.typeWidth) >>= fun _ =>
        pure (sort.extent n) := by
  cases sort with
  | extension => rfl
  | string | binary | array | object =>
    simp only [typeWidth, skip_zero, pure_bind]
    cases length <;> rfl

/-- What is passed over as a header of the sort: bytes that spell the length, and the type byte of
an extension. -/
theorem reads_readExtent_iff : sort.Begins bs ∧ Reads readExtent bs (sort.extent n) ↔
    ∃ header tail, bs = header ++ tail ∧ sort.Spells n header ∧ tail.length = sort.typeWidth := by
  have hlocal : ∀ m, Local (ofRead (Readable.skip sort.typeWidth) >>= fun _ =>
      pure (sort.extent m)) := fun m => (local_skip _).map _
  constructor
  · rintro ⟨⟨b, rest, length, rfl, htag⟩, hreads⟩
    rw [readExtent_eq] at hreads
    obtain ⟨lead, cs, span, hcons, hlead, hcs⟩ := hreads.of_bind (local_readLead _) local_readExtentOf
    obtain ⟨b', rfl, hspan⟩ := hlead.of_readLead
    obtain ⟨rfl, rfl⟩ := List.cons.inj hcons
    rw [Span.ofByte?_eq, htag] at hspan
    cases hspan
    rw [readExtentOf_sized] at hcs
    obtain ⟨field, tail, m, rfl, hfield, htail⟩ := hcs.of_bind (local_readLength _) hlocal
    obtain ⟨_, hskip, hextent⟩ := htail.of_map (local_skip _)
    obtain rfl : n = m := extent_inj hextent
    exact ⟨b :: field, tail, rfl, spells_iff.2 ⟨b, field, length, rfl, ofByte?_eq_some_iff.1 htag,
      reads_readLength_iff.1 hfield⟩, hskip.of_skip⟩
  · rintro ⟨header, tail, rfl, hspells, htail⟩
    obtain ⟨b, field, length, rfl, hlists, hfield⟩ := spells_iff.1 hspells
    have htag : Tag.ofByte? b = some (sort.tag length) := ofByte?_eq_some_iff.2 hlists
    have hspan : Span.ofByte? b = some (sort.tag length).span := by rw [Span.ofByte?_eq, htag]; rfl
    refine ⟨⟨b, field ++ tail, length, rfl, htag⟩, ?_⟩
    rw [readExtent_eq]
    refine (Reads.readLead hspan).bind ?_
    rw [readExtentOf_sized]
    exact (reads_readLength_iff.2 hfield).bind ((Reads.skip htail).map _)

/-! ## Writing -/

/-- Writing a header of the sort; an extension has a type. -/
def step (type : Int8) (n : Nat) : Sized → EncoderStep
  | string => .stringHeader n
  | binary => .binaryHeader n
  | extension => .extensionHeader type n
  | array => .arrayHeader n
  | object => .objectHeader n

theorem overflow_step (sort : Sized) (type : Int8) (n : Nat) :
    (sort.step type n).emission.overflow = Emission.tooLong? n := by
  cases sort with
  | string => exact Emission.overflow_putStringHeader n
  | binary => exact Emission.overflow_putBinaryHeader n
  | extension => exact Emission.overflow_putExtensionHeader n type
  | array => exact Emission.overflow_putArrayHeader n
  | object => exact Emission.overflow_putObjectHeader n

/-- Nothing is written of a length that is refused. -/
theorem emission_step_of_lt (sort : Sized) (type : Int8) (h : 2 ^ 32 - 1 < n) :
    (sort.step type n).emission = ⟨[], some ⟨n⟩⟩ := by
  have h16 : ∀ marker16 marker32,
      Emission.putLength16 marker16 marker32 n .empty = ⟨[], some ⟨n⟩⟩ := by
    intro marker16 marker32
    rw [Emission.putLength16, if_neg (by omega), if_neg (by omega)]
    rfl
  have h8 : ∀ marker8 marker16 marker32,
      Emission.putLength8 marker8 marker16 marker32 n .empty = ⟨[], some ⟨n⟩⟩ := by
    intro marker8 marker16 marker32
    rw [Emission.putLength8, if_neg (by omega), h16]
  cases sort with
  | string =>
    show Emission.putStringHeader n .empty = _
    rw [Emission.putStringHeader, if_neg (by omega), h8]
  | binary => exact h8 _ _ _
  | array =>
    show Emission.putArrayHeader n .empty = _
    rw [Emission.putArrayHeader, if_neg (by omega), h16]
  | object =>
    show Emission.putObjectHeader n .empty = _
    rw [Emission.putObjectHeader, if_neg (by omega), h16]
  | extension =>
    show Emission.putExtensionHeader type n .empty = _
    unfold Emission.putExtensionHeader
    split
    case h_6 =>
      rw [h8]
      rfl
    all_goals exact absurd h (by decide)

theorem spells_of_reads (h : Reads readHeader bs (sort.header n)) : sort.Spells n bs := by
  rcases h.cases_readHeader with ⟨b, v, -, hheader, -⟩ | ⟨b, s, -, hheader, -⟩ |
    ⟨sort', m, hheader, hspells⟩
  · cases sort <;> cases hheader
  · cases sort <;> cases hheader
  · cases sort <;> cases sort' <;> cases hheader <;> exact hspells

/-- What is written spells the length; the type byte of an extension comes after that. -/
theorem spells_step (sort : Sized) (type : Int8) (h : n < 2 ^ 32) :
    ∃ header tail, (sort.step type n).emission.bytes = header ++ tail ∧ sort.Spells n header ∧
      tail.length = sort.typeWidth := by
  have hplain : ∀ {e : Emission}, e.Conveys readHeader (sort.header n) → sort.typeWidth = 0 →
      ∃ header tail, e.bytes = header ++ tail ∧ sort.Spells n header ∧
        tail.length = sort.typeWidth := fun he hwidth =>
    ⟨_, [], (List.append_nil _).symm, spells_of_reads he.2, hwidth.symm⟩
  cases sort with
  | string => exact hplain (Emission.conveys_putStringHeader h) rfl
  | binary => exact hplain (Emission.conveys_putBinaryHeader h) rfl
  | array => exact hplain (Emission.conveys_putArrayHeader h) rfl
  | object => exact hplain (Emission.conveys_putObjectHeader h) rfl
  | extension =>
    obtain ⟨header, hreads, -, hbytes⟩ := Emission.reads_putExtensionHeader type h
    have hspells : extension.Spells n header := spells_of_reads hreads
    exact ⟨header, [type.toUInt8], hbytes, hspells, rfl⟩

/-- No other bytes that spell the length are fewer. -/
theorem size_step_le (type : Int8) {header : Bytes} (h : sort.Spells n header) :
    (sort.step type n).emission.size ≤ header.length + sort.typeWidth := by
  cases sort with
  | string => exact Emission.size_putStringHeader_le h
  | binary => exact Emission.size_putBinaryHeader_le h
  | extension => exact Emission.size_putExtensionHeader_le type h
  | array => exact Emission.size_putArrayHeader_le h
  | object => exact Emission.size_putObjectHeader_le (Nat.le_refl n) h

/-! ## Writing and reading -/

/-- A header is refused, and neither a buffer nor an outlet is touched, just when the length takes
more than 32 bits. Otherwise all of it is written, and whatever comes after it, it is passed over as
a header of the sort and length, and nothing else is. Whatever else is passed over as a header of
the same sort and length is no shorter. -/
theorem header_agrees (sort : Sized) (type : Int8) (n : Nat) :
    let header := (sort.step type n).emission
    (∀ w : OutputBuffer, w.emit header = (.error ⟨n⟩, w) ↔ 2 ^ 32 - 1 < n) ∧
    (∀ o : Outlet, o.emit header = (.error (.lengthOverflow ⟨n⟩), o) ↔ 2 ^ 32 - 1 < n) ∧
    (n ≤ 2 ^ 32 - 1 →
      (∀ allocation calls, let w := OutputBuffer.afterCalls allocation calls
        (w.emit header).1 = .ok () ∧ (w.emit header).2.pending = w.pending ++ header.bytes) ∧
      sort.Begins header.bytes ∧
      (∀ rest offset, readExtent (⟨header.bytes ++ rest, offset⟩ : Slice) =
        (.ok (sort.extent n), ⟨rest, offset + header.bytes.length⟩)) ∧
      ∀ bs rest offset offset', sort.Begins bs →
        readExtent (⟨bs ++ rest, offset⟩ : Slice) = (.ok (sort.extent n), ⟨rest, offset'⟩) →
        header.bytes.length ≤ bs.length) := by
  intro header
  have hlong : 2 ^ 32 - 1 < n → header = ⟨[], some ⟨n⟩⟩ := emission_step_of_lt sort type
  have hstatus : n ≤ 2 ^ 32 - 1 → header.status = .ok () := by
    intro hn
    rw [Emission.status_eq_ok_iff]
    exact (overflow_step sort type n).trans (Emission.tooLong?_eq_none_iff.2 hn)
  refine ⟨fun w => ⟨fun hw => ?_, fun hn => ?_⟩, fun o => ⟨fun ho => ?_, fun hn => ?_⟩, fun hn => ?_⟩
  · by_contra hn
    have herror : header.status = .error ⟨n⟩ := congrArg Prod.fst hw
    cases (hstatus (Nat.le_of_not_lt hn)).symm.trans herror
  · rw [hlong hn]
    rfl
  · by_contra hn
    unfold Outlet.emit at ho
    rw [hstatus (Nat.le_of_not_lt hn)] at ho
    split at ho <;> cases ho
  · rw [hlong hn]
    rfl
  · obtain ⟨hbegins, hreads⟩ := reads_readExtent_iff.2
      (spells_step sort type (Nat.lt_of_le_of_lt hn (by decide)))
    refine ⟨fun allocation calls => ⟨hstatus hn, ?_⟩, hbegins, hreads, ?_⟩
    · exact OutputBuffer.pending_emit _ header
    · intro bs rest offset offset' hbs hread
      obtain ⟨front, hfront, hreads'⟩ := local_readExtent _ _ _ hread
      obtain rfl : bs = front := List.append_cancel_right hfront
      obtain ⟨spelled, tail, rfl, hspells, htail⟩ := reads_readExtent_iff.1 ⟨hbs, hreads'⟩
      rw [List.length_append, htail]
      exact size_step_le type hspells

/-- The length of 17 has no marker of its own, unlike 16; it takes three bytes, type included, and
not fewer. A length of 33 bits is refused. -/
theorem header_agrees_extension :
    (extension.step (-1) 16).emission.bytes = [0xd8, 0xff] ∧
      (extension.step (-1) 17).emission.bytes = [0xc7, 17, 0xff] ∧
      (∀ bs, extension.Begins bs →
        readExtent (⟨bs ++ [1, 2], 0⟩ : Slice) = (.ok ⟨17, 0⟩, ⟨[1, 2], bs.length⟩) →
        3 ≤ bs.length) ∧
      ∀ w : OutputBuffer, w.emit (extension.step (-1) (2 ^ 32)).emission = (.error ⟨2 ^ 32⟩, w) := by
  obtain ⟨-, -, hfits⟩ := header_agrees extension (-1) 17
  obtain ⟨-, -, -, hshortest⟩ := hfits (by decide)
  obtain ⟨hrefused, -⟩ := header_agrees extension (-1) (2 ^ 32)
  exact ⟨rfl, rfl, fun bs hbs hread => hshortest bs [1, 2] 0 bs.length hbs hread,
    fun w => (hrefused w).2 (by decide)⟩

end Sized

end MessagePack
