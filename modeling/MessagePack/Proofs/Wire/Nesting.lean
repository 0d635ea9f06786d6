import MessagePack.Proofs.Wire.Deepening
import MessagePack.Proofs.Wire.Shortest
import MessagePack.Proofs.Wire.Skipping

/-!
# The bound on nesting

The bound is exact: the encoding of a value decodes under every bound from its depth on, and under a
smaller one decoding ends where the first node, depth first, lies that is one level below the
bound. With a greater bound every other answer stays, and decoding ends no earlier.

* `Value.places`: the nodes of a value, with their levels and with where their encodings begin.
* `nesting_bound`: decoding under a bound, and under two.
-/

namespace MessagePack

open Reading

/-! ## Places -/

/-- Where a node of a value lies. -/
structure Place where
  node : Value
  /-- How many levels below the value. -/
  depth : Nat
  /-- Where the encoding of the node begins. -/
  offset : Nat

namespace Value

mutual

/-- The nodes of a value at a depth whose encoding begins at an offset, depth first. -/
def places (depth offset : Nat) : Value → List Place
  | array vs => ⟨array vs, depth, offset⟩ ::
      placesOfItems (depth + 1) (offset + (Emission.putArrayHeader vs.length .empty).size) vs
  | object es => ⟨object es, depth, offset⟩ ::
      placesOfEntries (depth + 1) (offset + (Emission.putObjectHeader es.length .empty).size) es
  | v => [⟨v, depth, offset⟩]

/-- The nodes of items, whose encodings follow each other. -/
def placesOfItems (depth offset : Nat) : List Value → List Place
  | [] => []
  | v :: vs =>
    v.places depth offset ++ placesOfItems depth (offset + (Emission.ofValue v).size) vs

/-- The nodes of entries. The encoding of a key comes before that of its value. -/
def placesOfEntries (depth offset : Nat) : List (Value × Value) → List Place
  | [] => []
  | (k, v) :: es =>
    let afterKey := offset + (Emission.ofValue k).size
    k.places depth offset ++ (v.places depth afterKey ++
      placesOfEntries depth (afterKey + (Emission.ofValue v).size) es)

end

/-- The first node at a depth, depth first. -/
def firstAt? (v : Value) (depth : Nat) : Option Place :=
  (v.places 0 0).find? (·.depth == depth)

end Value

namespace Emission

/-- What is written of a value before its children. -/
def opening : Value → Emission
  | .array vs => putArrayHeader vs.length empty
  | .object es => putObjectHeader es.length empty
  | v => ofValue v

theorem ofEntries_eq (es : List (Value × Value)) :
    ofEntries es = ofItems (Value.object es).children := by
  induction es with
  | nil => rfl
  | cons e es ih =>
    show ofEntries (e :: es) = ofItems (e.1 :: e.2 :: (Value.object es).children)
    rw [ofEntries_cons, ofItems_cons, ofItems_cons, ih]

/-- The children are written one after the other. -/
theorem ofValue_eq (v : Value) : ofValue v = opening v ++ ofItems v.children := by
  cases v with
  | array vs => exact ofValue_array vs
  | object es => rw [ofValue_object, ofEntries_eq]; rfl
  | _ => exact (append_empty _).symm

end Emission

namespace Value

open Emission

variable {depth offset : Nat} {v : Value} {vs : List Value} {place : Place}

theorem placesOfEntries_eq (es : List (Value × Value)) :
    placesOfEntries depth offset es = placesOfItems depth offset (object es).children := by
  induction es generalizing offset with
  | nil => rfl
  | cons e es ih => exact congrArg _ (congrArg _ ih)

/-- The nodes of a value are the value and the nodes of its children. -/
theorem places_eq (depth offset : Nat) (v : Value) :
    v.places depth offset =
      ⟨v, depth, offset⟩ :: placesOfItems (depth + 1) (offset + (opening v).size) v.children := by
  cases v with
  | object es => rw [places, placesOfEntries_eq]; rfl
  | _ => rfl

theorem exists_of_mem_placesOfItems (h : place ∈ placesOfItems depth offset vs) :
    ∃ v ∈ vs, ∃ offset, place ∈ v.places depth offset := by
  induction vs generalizing offset with
  | nil => cases h
  | cons v vs ih =>
    rcases List.mem_append.1 h with h | h
    · exact ⟨v, List.mem_cons_self, offset, h⟩
    · obtain ⟨w, hw, hplace⟩ := ih h
      exact ⟨w, List.mem_cons_of_mem _ hw, hplace⟩

/-- No node lies deeper than the depth of the value says. -/
theorem depth_le_of_mem_places (h : place ∈ v.places depth offset) :
    place.depth ≤ depth + v.depth := by
  induction v using inductionOnChildren generalizing depth offset with
  | h v ih =>
    rw [places_eq] at h
    rcases List.mem_cons.1 h with rfl | h
    · exact Nat.le_add_right _ _
    · obtain ⟨c, hc, offset', hplace⟩ := exists_of_mem_placesOfItems h
      have hlt := depth_lt_of_mem_children hc
      have := ih c hc hplace
      omega

end Value

/-! ## Encodings of nodes -/

/-- In bytes that begin at the offset, the encoding of the node is where the place says. -/
def Place.In (place : Place) (offset : Nat) (bs : Bytes) : Prop :=
  ∃ before c after, encode place.node = .ok c ∧ bs = before ++ (c ++ after) ∧
    place.offset = offset + before.length

namespace Place.In

variable {place : Place} {offset : Nat} {bs : Bytes}

theorem append_right (h : place.In offset bs) (more : Bytes) : place.In offset (bs ++ more) := by
  obtain ⟨before, c, after, hencode, rfl, hoffset⟩ := h
  exact ⟨before, c, after ++ more, hencode, by simp, hoffset⟩

theorem append_left {front : Bytes} (h : place.In (offset + front.length) bs) :
    place.In offset (front ++ bs) := by
  obtain ⟨before, c, after, hencode, rfl, hoffset⟩ := h
  refine ⟨front ++ before, c, after, hencode, by simp, ?_⟩
  rw [hoffset, List.length_append, Nat.add_assoc]

end Place.In

namespace Emission

/-! ## Levels enough -/

/-- An array or an object has a header, after which its children are passed over. -/
theorem conveys_opening {v : Value} (hv : ¬v.isFlat) (hlen : v.wireLength < 2 ^ 32) :
    ∃ header, Conveys (opening v) readHeader header ∧
      ∀ item : Reading Slice Value,
        (readBody item header).void = skipItems item.void v.children.length := by
  cases v with
  | array vs =>
    refine ⟨.array vs.length, conveys_putArrayHeader hlen, fun item => ?_⟩
    show (readItems item vs.length [] >>= fun vs => pure (Value.array vs)).void = _
    rw [void_bind]
    exact (skipItems_void item vs.length []).symm
  | object es =>
    refine ⟨.object es.length, conveys_putObjectHeader hlen, fun item => ?_⟩
    have hcount : (Value.object es).children.length = 2 * es.length := by
      simp [Value.children, List.length_flatMap, Nat.mul_comm]
    show (readEntries item es.length [] >>= fun es => pure (Value.object es)).void = _
    rw [void_bind, hcount]
    exact (skipItems_void_two_mul item es.length []).symm
  | _ => exact absurd rfl hv

theorem skipValue_succ (levels : Nat) :
    (skipValue (levels + 1) : Reading Slice Unit) =
      readHeader >>= fun header => (readBody (readValue levels) header).void := by
  rw [skipValue_eq_void, readValue_succ, void_bind]

theorem conveys_skipItems {item : Reading Slice Unit} {vs : List Value}
    (hvs : ∀ v ∈ vs, Conveys (ofValue v) item ()) :
    Conveys (ofItems vs) (skipItems item vs.length) () := by
  induction vs with
  | nil => exact ⟨rfl, Reads.pure ()⟩
  | cons v vs ih =>
    obtain ⟨hv, hvs⟩ := List.forall_mem_cons.1 hvs
    rw [ofItems_cons, List.length_cons, skipItems_succ]
    exact hv.bind (ih hvs)

/-- With more levels than the value is deep, its encoding is passed over. -/
theorem conveys_skipValue {v : Value} {levels : Nat} (henc : v.Encodable)
    (hdepth : v.depth < levels) : Conveys (ofValue v) (skipValue levels) () := by
  induction v using Value.inductionOnChildren generalizing levels with
  | h v ih =>
    obtain ⟨levels, rfl⟩ := Nat.exists_eq_succ_of_ne_zero (Nat.ne_zero_of_lt hdepth)
    by_cases hflat : v.isFlat
    · rw [skipValue_eq_void]
      exact (conveys_flat hflat henc).void
    · obtain ⟨hlen, hchildren⟩ := Value.everywhere_iff_children.1 henc
      obtain ⟨header, hheader, hbody⟩ := conveys_opening hflat hlen
      have hitems : ∀ c ∈ v.children, Conveys (ofValue c) (skipValue levels) () := by
        intro c hc
        have := Value.depth_lt_of_mem_children hc
        exact ih c hc (hchildren c hc) (by omega)
      rw [skipValue_succ, ofValue_eq]
      refine hheader.bind ?_
      rw [hbody, ← skipValue_eq_void]
      exact conveys_skipItems hitems

theorem overflow_of_encodable {v : Value} (henc : v.Encodable) : (ofValue v).overflow = none :=
  (conveys_skipValue henc (Nat.lt_succ_self v.depth)).1

theorem bytes_ofItems_cons {v : Value} (henc : v.Encodable) (vs : List Value) :
    (ofItems (v :: vs)).bytes = (ofValue v).bytes ++ (ofItems vs).bytes := by
  rw [ofItems_cons, bytes_append (overflow_of_encodable henc)]

theorem bytes_ofValue {v : Value} (henc : v.Encodable) :
    (ofValue v).bytes = (opening v).bytes ++ (ofItems v.children).bytes := by
  have hnone : (opening v).overflow = none := by
    have h := overflow_of_encodable henc
    rw [ofValue_eq, overflow_append] at h
    exact (Option.or_eq_none_iff.1 h).1
  rw [ofValue_eq, bytes_append hnone]

/-! ## Places in encodings -/

theorem in_ofItems {depth offset : Nat} {vs : List Value} (henc : ∀ v ∈ vs, v.Encodable)
    (hvs : ∀ v ∈ vs, ∀ offset, ∀ place ∈ v.places depth offset, place.In offset (ofValue v).bytes) :
    ∀ place ∈ Value.placesOfItems depth offset vs, place.In offset (ofItems vs).bytes := by
  induction vs generalizing offset with
  | nil => exact nofun
  | cons v vs ih =>
    intro place hplace
    rw [bytes_ofItems_cons (henc v List.mem_cons_self)]
    rcases List.mem_append.1 hplace with hplace | hplace
    · exact (hvs v List.mem_cons_self offset place hplace).append_right _
    · have hrest := ih (fun v hv => henc v (List.mem_cons_of_mem _ hv))
        (fun v hv => hvs v (List.mem_cons_of_mem _ hv)) place hplace
      exact hrest.append_left

/-- Every node of a value is encoded where its place says. -/
theorem in_ofValue {depth offset : Nat} {v : Value} (henc : v.Encodable) :
    ∀ place ∈ v.places depth offset, place.In offset (ofValue v).bytes := by
  induction v using Value.inductionOnChildren generalizing depth offset with
  | h v ih =>
    intro place hplace
    rw [Value.places_eq] at hplace
    rcases List.mem_cons.1 hplace with rfl | hplace
    · exact ⟨[], _, [], encode_eq (overflow_of_encodable henc), by simp, rfl⟩
    · obtain ⟨-, hchildren⟩ := Value.everywhere_iff_children.1 henc
      rw [bytes_ofValue henc]
      have hitems := in_ofItems hchildren (fun c hc _ => ih c hc (hchildren c hc)) place hplace
      exact hitems.append_left

/-! ## Too few levels -/

/-- In bytes that begin at the offset, the step finds a value nested too deep, at the first of the
places that are at the depth. -/
def StopsAt (x : Reading Slice Unit) (bs : Bytes) (places : List Place) (depth offset : Nat) :
    Prop :=
  ∃ place o, places.find? (·.depth == depth) = some place ∧ place.offset = offset + o ∧
    Fails x bs (.depthExceeded o)

theorem stopsAt_skipItems {levels depth offset : Nat} {vs : List Value}
    (henc : ∀ v ∈ vs, v.Encodable)
    (hvs : ∀ v ∈ vs, levels ≤ v.depth → ∀ offset,
      StopsAt (skipValue levels) (ofValue v).bytes (v.places depth offset) (depth + levels) offset)
    (hdeep : ∃ v ∈ vs, levels ≤ v.depth) :
    StopsAt (skipItems (skipValue levels) vs.length) (ofItems vs).bytes
      (Value.placesOfItems depth offset vs) (depth + levels) offset := by
  induction vs generalizing offset with
  | nil =>
    obtain ⟨v, hv, -⟩ := hdeep
    cases hv
  | cons v vs ih =>
    obtain ⟨henc, hrest⟩ := List.forall_mem_cons.1 henc
    unfold StopsAt
    rw [bytes_ofItems_cons henc, List.length_cons, skipItems_succ, Value.placesOfItems,
      List.find?_append]
    by_cases hv : levels ≤ v.depth
    · obtain ⟨place, o, hfind, hoffset, hfails⟩ := hvs v List.mem_cons_self hv offset
      refine ⟨place, o, by rw [hfind, Option.some_or], hoffset, fun more offset => ?_⟩
      rw [List.append_assoc]
      exact hfails.bind _ offset
    · -- A value that is shallow enough is passed over, and none of its nodes is at the depth.
      have hnone : (v.places depth offset).find? (·.depth == depth + levels) = none := by
        refine List.find?_eq_none.2 fun place hplace => ?_
        have hle := Value.depth_le_of_mem_places hplace
        simp
        omega
      have hdeep' : ∃ w ∈ vs, levels ≤ w.depth := by
        obtain ⟨w, hw, hle⟩ := hdeep
        rcases List.mem_cons.1 hw with rfl | hw
        · exact absurd hle hv
        · exact ⟨w, hw, hle⟩
      obtain ⟨place, o, hfind, hoffset, hfails⟩ :=
        ih hrest (fun v hv => hvs v (List.mem_cons_of_mem _ hv)) hdeep'
      obtain ⟨-, hreads⟩ := conveys_skipValue henc (Nat.lt_of_not_le hv)
      refine ⟨place, o + (ofValue v).bytes.length, by rw [hnone, Option.none_or, hfind], ?_, ?_⟩
      · rw [hoffset, size]
        omega
      · exact hreads.bind_fails (e := .depthExceeded o) hfails

/-- With no more levels than the value is deep, passing over its encoding stops at the first node
that is as many levels down. -/
theorem stopsAt_skipValue {v : Value} {levels depth offset : Nat} (henc : v.Encodable)
    (hdepth : levels ≤ v.depth) :
    StopsAt (skipValue levels) (ofValue v).bytes (v.places depth offset) (depth + levels)
      offset := by
  induction v using Value.inductionOnChildren generalizing levels depth offset with
  | h v ih =>
    cases levels with
    | zero =>
      refine ⟨⟨v, depth, offset⟩, 0, by simp [Value.places_eq], rfl, fun rest offset => ?_⟩
      simp [skipValue, tooDeep, DecodeError.shift, Readable.offset]
    | succ levels =>
      obtain ⟨hlen, hchildren⟩ := Value.everywhere_iff_children.1 henc
      have hdeep : ∃ c ∈ v.children, levels ≤ c.depth := by
        by_contra! hshallow
        have := Value.depth_le_of_children hshallow
        omega
      have hflat : ¬v.isFlat := by
        intro hflat
        obtain ⟨c, hc, -⟩ := hdeep
        rw [Value.children_of_isFlat hflat] at hc
        cases hc
      obtain ⟨header, ⟨-, hheader⟩, hbody⟩ := conveys_opening hflat hlen
      obtain ⟨place, o, hfind, hoffset, hfails⟩ :=
        @stopsAt_skipItems levels (depth + 1) (offset + (opening v).size) v.children hchildren
          (fun c hc hle _ => ih c hc (hchildren c hc) hle) hdeep
      unfold StopsAt
      rw [bytes_ofValue henc, Value.places_eq, skipValue_succ]
      refine ⟨place, o + (opening v).bytes.length, ?_, ?_, ?_⟩
      · rw [List.find?_cons_of_neg (by simp), ← hfind, Nat.add_assoc, Nat.add_comm 1]
      · rw [hoffset, size]
        omega
      · refine hheader.bind_fails (e := .depthExceeded o) ?_
        rwa [hbody, ← skipValue_eq_void]

end Emission

/-! ## Byte strings -/

section

variable {v : Value} {maxDepth : Nat} (henc : v.Encodable)

include henc

theorem decode_of_depth_le (hdepth : v.depth ≤ maxDepth) :
    ∃ w, decode maxDepth (Emission.ofValue v).bytes =
      .ok (w, (Emission.ofValue v).bytes.length) := by
  obtain ⟨-, hreads⟩ := Emission.conveys_skipValue henc (Nat.lt_succ_of_le hdepth)
  have hrun := hreads [] 0
  rw [List.append_nil, Nat.zero_add, skipValue_eq_void] at hrun
  obtain ⟨w, r, hread, hend⟩ := of_bind_ok hrun
  cases hend
  replace hread : (readAny maxDepth).run (Slice.ofBytes (Emission.ofValue v).bytes) = _ := hread
  exact ⟨w, by rw [decode, hread]⟩

theorem decode_of_lt_depth (hdepth : maxDepth < v.depth) :
    ∃ place, v.firstAt? (maxDepth + 1) = some place ∧ place.In 0 (Emission.ofValue v).bytes ∧
      decode maxDepth (Emission.ofValue v).bytes = .error (.depthExceeded place.offset) := by
  obtain ⟨place, o, hfind, hoffset, hfails⟩ := Emission.stopsAt_skipValue henc hdepth
  rw [Nat.zero_add] at hfind hoffset
  refine ⟨place, hfind, Emission.in_ofValue henc place (List.mem_of_find?_eq_some hfind), ?_⟩
  rw [skipValue_eq_void, ← hoffset] at hfails
  have herror := decode_of_fails hfails.of_void []
  rwa [List.append_nil] at herror

end

/-- The encoding of a value decodes under the bounds that are no less than its depth, and under no
other: there the error is at the first node that lies a level below the bound, and where its
encoding begins. On any bytes, an answer that is not for depth stays under greater bounds, and one
for depth only moves on. What is decoded is no deeper than the bound. -/
theorem nesting_bound (maxDepth : Nat) :
    (∀ v : Value, v.Encodable → ∃ bs, encode v = .ok bs ∧
      ((∃ w, decode maxDepth bs = .ok (w, bs.length)) ↔ v.depth ≤ maxDepth) ∧
      (maxDepth < v.depth → ∃ place, v.firstAt? (maxDepth + 1) = some place ∧ place.In 0 bs ∧
        decode maxDepth bs = .error (.depthExceeded place.offset))) ∧
    (∀ bs maxDepth', maxDepth ≤ maxDepth' →
      ((∀ o, decode maxDepth bs ≠ .error (.depthExceeded o)) →
        decode maxDepth' bs = decode maxDepth bs) ∧
      (∀ o', decode maxDepth' bs = .error (.depthExceeded o') →
        ∃ o ≤ o', decode maxDepth bs = .error (.depthExceeded o))) ∧
    (∀ bs v n, decode maxDepth bs = .ok (v, n) → v.depth ≤ maxDepth) := by
  refine ⟨fun v henc => ?_, fun bs maxDepth' hle => ⟨fun hne => ?_, fun o' ho' => ?_⟩,
    fun bs v n h => ?_⟩
  · refine ⟨_, encode_eq (Emission.overflow_of_encodable henc), ⟨?_, decode_of_depth_le henc⟩,
      decode_of_lt_depth henc⟩
    rintro ⟨w, hw⟩
    by_contra hlt
    obtain ⟨place, -, -, herror⟩ := decode_of_lt_depth henc (Nat.lt_of_not_le hlt)
    cases hw.symm.trans herror
  · rcases decode_of_deepens hle bs with hsame | ⟨o, ho, -⟩
    · exact hsame
    · exact absurd ho (hne o)
  · rcases decode_of_deepens hle bs with hsame | ⟨o, ho, hbefore⟩
    · exact ⟨o', Nat.le_refl o', hsame ▸ ho'⟩
    · exact ⟨o, hbefore o' ho', ho⟩
  · obtain ⟨-, deepest, hdeepest, hencodes⟩ := encodes_of_decode h
    have := hencodes.add_depth_le
    omega

/-- An array of an empty array and of an object with an array for a key: a bound of one lets the
empty array pass and stops at the key. A byte that begins no value is found under a greater bound. -/
theorem nesting_bound_key :
    (Value.array [.array [], .object [(.array [.bool true], .nil)]]).Encodable ∧
      encode (.array [.array [], .object [(.array [.bool true], .nil)]]) =
        .ok [0x92, 0x90, 0x81, 0x91, 0xc3, 0xc0] ∧
      decode 1 [0x92, 0x90, 0x81, 0x91, 0xc3, 0xc0] = .error (.depthExceeded 3) ∧
      decode 7 [0x91, 0xc1] = .error (.invalidByte 0xc1 1) := by
  have henc : (Value.array [.array [], .object [(.array [.bool true], .nil)]]).Encodable := by
    decide +kernel
  have hencode : encode (.array [.array [], .object [(.array [.bool true], .nil)]]) =
      .ok [0x92, 0x90, 0x81, 0x91, 0xc3, 0xc0] := rfl
  obtain ⟨hexact, hgreater, -⟩ := nesting_bound 1
  refine ⟨henc, hencode, ?_, ?_⟩
  · obtain ⟨bs, hbs, -, hdeep⟩ := hexact _ henc
    cases hencode.symm.trans hbs
    obtain ⟨place, hfirst, -, herror⟩ := hdeep (by decide)
    cases hfirst
    exact herror
  · have hinvalid : decode 1 [0x91, 0xc1] = .error (.invalidByte 0xc1 1) := rfl
    rw [← hinvalid]
    refine (hgreater _ 7 (by decide)).1 fun o ho => ?_
    rw [hinvalid] at ho
    cases ho

end MessagePack
