import MessagePack.Proofs.Wire.Parsing
import Mathlib.Data.Finset.Card
import Mathlib.Data.List.Sort

/-!
# Objects that pairs build

Of pairs with equal keys the last one counts, key included, whether an object is built from native
pairs or decoded. Equal keys may be numbers of different widths, so an object has as many entries as
there are classes of equal keys among the pairs.

* `Value.keyClasses`: the classes of the keys of some pairs.
* `Value.ofPairs_last_wins`: what is in an object, and when the order of the pairs does not matter.
-/

namespace MessagePack

namespace Value

/-! ## Classes of equal values -/

instance : Std.LawfulBEqCmp cmp := ⟨beq_iff.symm⟩

instance : EquivBEq Value := @Std.LawfulBEqCmp.equivBEq _ _ cmp _ _

/-- Values that are equal, as an equivalence. -/
instance equality : Setoid Value where
  r a b := a == b
  iseqv := ⟨fun _ => BEq.rfl, BEq.symm, BEq.trans⟩

instance (a b : Value) : Decidable (a ≈ b) := inferInstanceAs (Decidable ((a == b) = true))

/-- The classes of the keys of some pairs. -/
def keyClasses (pairs : List (Value × Value)) : List (Quotient equality) :=
  pairs.map fun pair => ⟦pair.1⟧

/-- Keys that differ are in classes of their own. -/
theorem nodup_keyClasses {pairs : List (Value × Value)} (h : SortedEntries.Distinct cmp pairs) :
    (keyClasses pairs).Nodup :=
  List.pairwise_map.2 (h.imp fun hne heq => hne (beq_iff.1 (Quotient.exact heq)))

theorem mem_keyClasses_ofPairs {pairs : List (Value × Value)} {c : Quotient equality} :
    c ∈ keyClasses (SortedEntries.ofPairs cmp pairs) ↔ c ∈ keyClasses pairs := by
  simp only [keyClasses, List.mem_map]
  constructor
  · rintro ⟨e, he, rfl⟩
    exact ⟨e, SortedEntries.mem_of_mem_ofPairs he, rfl⟩
  · rintro ⟨pair, hpair, rfl⟩
    obtain ⟨e, he, heq⟩ : ∃ e ∈ SortedEntries.ofPairs cmp pairs, e.1.cmp pair.1 = .eq :=
      SortedEntries.exists_mem_ofPairs hpair
    exact ⟨e, he, Quotient.sound (beq_iff.2 heq)⟩

/-- An object has one entry for each class of equal keys. -/
theorem length_entries_ofPairs (pairs : List (Value × Value)) :
    (SortedEntries.ofPairs cmp pairs).length = (keyClasses pairs).toFinset.card := by
  have hdistinct : SortedEntries.Distinct cmp (SortedEntries.ofPairs cmp pairs) :=
    (SortedEntries.ofPairs_ascending pairs).distinct
  have hclasses : (keyClasses (SortedEntries.ofPairs cmp pairs)).toFinset =
      (keyClasses pairs).toFinset := by
    ext c
    rw [List.mem_toFinset, List.mem_toFinset, mem_keyClasses_ofPairs]
  rw [← hclasses, List.toFinset_card_of_nodup (nodup_keyClasses hdistinct), keyClasses,
    List.length_map]

end Value

/-! ## Decoding -/

/-- What decodes by itself is read from its bytes, whatever comes after them. -/
theorem reads_of_decode_length {maxDepth : Nat} {bs : Bytes} {v : Value}
    (h : decode maxDepth bs = .ok (v, bs.length)) : Reads (readAny maxDepth) bs v := by
  obtain ⟨front, rest, hbs, hlength, hreads⟩ := reads_of_decode h
  have hrest : rest = [] := by
    have := congrArg List.length hbs
    rw [List.length_append, hlength] at this
    exact List.length_eq_zero_iff.1 (by omega)
  rw [hrest, List.append_nil] at hbs
  exact hbs ▸ hreads

/-- A header that announces so many pairs, and their keys and values, decode to the object that the
pairs build. The parts are decoded with one level less. -/
theorem decode_object {maxDepth : Nat} {header : Bytes} {parts : List (Part × Part)}
    (hheader : Sized.object.Spells parts.length header)
    (hparts : ∀ part ∈ Part.ofPairs parts, ∃ below, below + 1 = maxDepth ∧
      decode below part.bytes = .ok (part.value, part.bytes.length)) (rest : Bytes) :
    decode maxDepth (header ++ Part.bytesOf (Part.ofPairs parts) ++ rest) =
      .ok (.ofPairs (Part.entriesOf parts),
        (header ++ Part.bytesOf (Part.ofPairs parts)).length) := by
  have hitem : ∀ part ∈ Part.ofPairs parts, Reads (readValue maxDepth) part.bytes part.value := by
    intro part hpart
    obtain ⟨below, rfl, hdecode⟩ := hparts part hpart
    exact reads_of_decode_length hdecode
  have hreads : Reads (readBody (readValue maxDepth) (.object parts.length))
      (Part.bytesOf (Part.ofPairs parts)) (.ofPairs (Part.entriesOf parts)) :=
    (Reads.readEntries hitem []).map Value.object
  refine decode_of_reads ?_ rest
  rw [readAny, readValue_succ]
  exact (Reads.sizedHeader hheader).bind hreads

/-! ## Objects -/

namespace Value

/-- Pairs build an object whose keys strictly ascend. Under each key it has the last pair with an
equal key, itself and not just its value, and nothing under other keys; so it has one entry for each
class of equal keys. Decoding an object of these pairs gives the same, and where no two keys are
equal, so does any other order of the pairs. -/
theorem ofPairs_last_wins (pairs : List (Value × Value)) :
    (∃ es, ofPairs pairs = object es ∧ es.Pairwise (fun e f => e.1.cmp f.1 = .lt) ∧
      ∀ k, es.find? (fun e => e.1 == k) = pairs.reverse.find? (fun pair => pair.1 == k)) ∧
    (∀ k, (ofPairs pairs).get k =
      ((pairs.reverse.find? fun pair => pair.1 == k).map Prod.snd).getD nil) ∧
    (ofPairs pairs).length = (keyClasses pairs).toFinset.card ∧
    (∀ maxDepth header parts rest, Part.entriesOf parts = pairs →
      Sized.object.Spells parts.length header →
      (∀ part ∈ Part.ofPairs parts, ∃ below, below + 1 = maxDepth ∧
        decode below part.bytes = .ok (part.value, part.bytes.length)) →
      decode maxDepth (header ++ Part.bytesOf (Part.ofPairs parts) ++ rest) =
        .ok (ofPairs pairs, (header ++ Part.bytesOf (Part.ofPairs parts)).length)) ∧
    (pairs.Pairwise (fun pair pair' => ¬pair.1 == pair'.1) → ∀ pairs', pairs'.Perm pairs →
      ofPairs pairs' = ofPairs pairs ∧ encode (ofPairs pairs') = encode (ofPairs pairs)) := by
  have hfind : ∀ k, (SortedEntries.ofPairs cmp pairs).find? (fun e => e.1 == k) =
      pairs.reverse.find? (fun pair => pair.1 == k) := fun k => SortedEntries.find?_ofPairs k pairs
  refine ⟨⟨_, rfl, SortedEntries.ofPairs_ascending pairs, hfind⟩, fun k => ?_,
    length_entries_ofPairs pairs, ?_, fun hdistinct pairs' hperm => ?_⟩
  · rw [← hfind]
    rfl
  · rintro maxDepth header parts rest rfl hheader hparts
    exact decode_object hheader hparts rest
  · have hkeys : SortedEntries.Distinct cmp pairs :=
      hdistinct.imp fun hne heq => hne (beq_iff.2 heq)
    have hsame : ofPairs pairs' = ofPairs pairs := congrArg object (hkeys.ofPairs_eq_of_perm hperm)
    exact ⟨hsame, by rw [hsame]⟩

/-- One key twice, in two widths, as native pairs and on the wire; and two keys in either order. -/
theorem ofPairs_last_wins_widths :
    let pairs : List (Value × Value) := [(uint8 1, nil), (int64 1, bool true)]
    (ofPairs pairs).get (float64 ⟨0x3ff0000000000000⟩) = bool true ∧
    decode 1 ([0x82] ++ [0x01, 0xc0, 0xd3, 0, 0, 0, 0, 0, 0, 0, 1, 0xc3] ++ [0xc1]) =
      .ok (ofPairs pairs, 13) ∧
    ofPairs [(uint8 1, nil), (int8 (-1), nil)] = ofPairs [(int8 (-1), nil), (uint8 1, nil)] := by
  intro pairs
  let parts : List (Part × Part) :=
    [(⟨uint8 1, [0x01], 0⟩, ⟨nil, [0xc0], 0⟩),
      (⟨int64 1, [0xd3, 0, 0, 0, 0, 0, 0, 0, 1], 0⟩, ⟨bool true, [0xc3], 0⟩)]
  have hparts : ∀ part ∈ Part.ofPairs parts, ∃ below, below + 1 = 1 ∧
      decode below part.bytes = .ok (part.value, part.bytes.length) := by
    rw [Part.forall_mem_ofPairs]
    simp only [parts, List.forall_mem_cons]
    exact ⟨⟨⟨0, rfl, rfl⟩, ⟨0, rfl, rfl⟩⟩, ⟨⟨0, rfl, rfl⟩, ⟨0, rfl, rfl⟩⟩, List.forall_mem_nil _⟩
  have hone : int64 1 == float64 ⟨0x3ff0000000000000⟩ := by decide +kernel
  have hkeys : ¬int8 (-1) == uint8 1 := by decide +kernel
  have hdistinct : [(int8 (-1), nil), (uint8 1, nil)].Pairwise
      fun pair pair' : Value × Value => ¬pair.1 == pair'.1 := by
    simpa using hkeys
  obtain ⟨-, hget, -, hdecode, -⟩ := ofPairs_last_wins pairs
  obtain ⟨-, -, -, -, hperm⟩ := ofPairs_last_wins [(int8 (-1), nil), (uint8 1, nil)]
  refine ⟨(hget _).trans ?_, hdecode 1 [0x82] parts [0xc1] rfl (.fixed (by decide)) hparts, ?_⟩
  · simp [pairs, hone]
  · exact (hperm hdistinct _ (List.Perm.swap _ _ _)).1

end Value

end MessagePack
