import MessagePack.Document
import MessagePack.Proofs.Json.Numbers
import MessagePack.Proofs.Value.Json

/-!
# Values that documents can hold

A document has no room for binaries and extensions, for floats that are not finite, for strings that
are not text, and for keys that are not strings. A value without these is rendered as a document
from which an equal value comes back: widths of numbers get lost, nothing else. The other way round
every document comes back as it was.

* `Value.DocumentLike`: values that documents can hold.
* `Value.json_inverse`: rendering and reading values of documents undo each other.
-/

namespace MessagePack

/-- A point of the line, no infinity and a number. -/
def Exact.isFinite : Exact → Bool
  | .finite _ => true
  | _ => false

theorem Binary64.isFinite_iff {x : Binary64} : x.isFinite ↔ x.exact.isFinite := by
  rw [Binary64.exact_eq, Binary64.isFinite]
  cases x.magnitude <;> simp [Exact.ofMagnitude, Exact.isFinite]
  cases x.isNegative <;> rfl

namespace Value

/-- A document can hold the node: no float but a finite one, no string but text, no key but a
string, neither a binary nor an extension. -/
def IsDocumentNode : Value → Prop
  | float32 x => x.exact.isFinite
  | float64 x => x.exact.isFinite
  | string bytes => ∃ s, bytes = utf8 s
  | binary _ | extension .. => False
  | object es => ∀ e ∈ es, e.1.isString
  | _ => True

/-- A document can hold the value. -/
def DocumentLike : Value → Prop := Everywhere IsDocumentNode

theorem beq_refl (v : Value) : v == v := beq_iff.2 Std.ReflCmp.compare_self

/-- Numbers that are compared alike are equal. -/
theorem beq_of_number? {v w : Value} {x : Numeral} (hv : v.number? = some x)
    (hw : w.number? = some x) : v == w := by
  obtain ⟨-, -, hrank⟩ := number?_spec hv
  have hflat : v.isFlat := isFlat_iff.2 (by omega)
  rw [beq_iff, cmp_flat hflat, token_number hv, token_number hw]
  exact Std.ReflCmp.compare_self

theorem cmpItems_of_forall₂ {vs ws : List Value} (h : List.Forall₂ (fun v w => v == w) vs ws) :
    cmpItems vs ws = .eq := by
  induction h with
  | nil => rfl
  | cons hv _ ih => rw [cmpItems_cons, beq_iff.1 hv, ih]; rfl

theorem cmpEntries_of_forall₂ {es fs : List (Value × Value)}
    (h : List.Forall₂ (fun e f => e.1 == f.1 ∧ e.2 == f.2) es fs) : cmpEntries es fs = .eq := by
  induction h with
  | nil => rfl
  | cons he _ ih => rw [cmpEntries_cons, beq_iff.1 he.1, beq_iff.1 he.2, ih]; rfl

/-! ## Values through documents -/

theorem int?_ofJsonNumber {i : Int} (hmin : -2 ^ 63 ≤ i) (hmax : i < 2 ^ 64) :
    (ofJsonNumber (.ofInt i)).int? = some i := by
  unfold JsonNumber.ofInt
  split
  case isTrue hneg => rw [ofJsonNumber, int?, Int64.toInt_ofInt_of_le hmin (by omega)]
  case isFalse hpos =>
    rw [int?_ofJsonNumber_unsigned, UInt64.toNat_ofNat_of_lt' (show i.toNat < 2 ^ 64 by omega),
      Int.toNat_of_nonneg (Int.not_lt.1 hpos)]

section

variable [TextFormats]

/-- The value has a document, from which an equal value comes back. -/
def ComesBack (v : Value) : Prop := ∃ j, v.toJson = .ok j ∧ j.WellFormed ∧ ofJson j == v

theorem comesBack_of_int? {v : Value} {i : Int} (h : v.int? = some i) : v.ComesBack := by
  obtain ⟨hmin, hmax⟩ := int?_bounds h
  refine ⟨.number (.ofInt i), toJson_of_int? h, ?_, ?_⟩
  · exact (Json.everywhere_of_isFlat rfl).2 (JsonNumber.canonical_ofInt hmin)
  · rw [ofJson]
    exact beq_of_same (same_of_int? (int?_ofJsonNumber hmin hmax) h)

/-- A finite float comes back in double precision. -/
theorem comesBack_of_float {v : Value} {x : Binary64} (hdocument : v.toJson = .ok (floatToJson x))
    (hfinite : x.exact.isFinite) (hnumber : v.number? = some (.double x)) : v.ComesBack := by
  have hx : x.isFinite := Binary64.isFinite_iff.2 hfinite
  refine ⟨.number (.float x), ?_, (Json.everywhere_of_isFlat rfl).2 hx, ?_⟩
  · rw [hdocument, floatToJson, if_pos hx]
  · rw [ofJson, ofJsonNumber]
    exact beq_of_number? rfl hnumber

/-- A document without parts whose value is the one that it was made of. -/
theorem comesBack_of_whole {v : Value} {j : Json} (hdocument : v.toJson = .ok j) (hflat : j.isFlat)
    (hnode : j.IsCanonicalNode) (hv : ofJson j = v) : v.ComesBack :=
  ⟨j, hdocument, (Json.everywhere_of_isFlat hflat).2 hnode, hv ▸ beq_refl _⟩

theorem comesBack_of_isFlat {v : Value} (hflat : v.isFlat) (h : v.IsDocumentNode) :
    v.ComesBack := by
  cases hint : v.int? with
  | some i => exact comesBack_of_int? hint
  | none =>
    cases v with
    | nil => exact comesBack_of_whole (j := .null) (by rw [toJson]) rfl trivial (by rw [ofJson])
    | bool b => exact comesBack_of_whole (j := .bool b) (by rw [toJson]) rfl trivial (by rw [ofJson])
    | float32 x =>
      refine comesBack_of_float (by rw [toJson]) ?_ rfl
      rw [exact_widen]
      exact h
    | float64 x => exact comesBack_of_float (by rw [toJson]) h rfl
    | string bytes =>
      obtain ⟨s, rfl⟩ := h
      exact comesBack_of_whole (toJson_text s) rfl trivial (by rw [ofJson, text])
    | binary bytes | extension type data => cases h
    | array vs | object es => cases hflat
    | _ => cases hint

theorem comesBack_array {vs : List Value} (h : ∀ v ∈ vs, v.ComesBack) :
    (array vs).ComesBack := by
  choose! f hdocument hwell hbeq using h
  have hitems : List.Forall₂ (fun v j => v.toJson = .ok j) vs (vs.map f) := by
    rw [List.forall₂_map_right_iff, List.forall₂_same]
    exact hdocument
  refine ⟨.array (vs.map f), ?_, Json.everywhere_array.2 ⟨trivial, ?_⟩, ?_⟩
  · rw [toJson, itemsToJson_eq hitems, List.reverse_nil, List.nil_append]
  · exact List.forall_mem_map.2 hwell
  · rw [ofJson_array, beq_iff, cmp_array, List.map_map]
    refine cmpItems_of_forall₂ ?_
    rw [List.forall₂_map_left_iff, List.forall₂_same]
    exact hbeq

/-- Different texts are different names, so each entry becomes a member of its own, and comes back
to its place by the order of the keys. -/
theorem comesBack_object {es : List (Value × Value)} (hasc : SortedEntries.Ascending cmp es)
    (h : ∀ e ∈ es, (∃ s, e.1 = text s) ∧ e.2.ComesBack) : (object es).ComesBack := by
  have hmember : ∀ e ∈ es, ∃ m : String × Json,
      e.1 = text m.1 ∧ e.2.toJson = .ok m.2 ∧ m.2.WellFormed ∧ ofJson m.2 == e.2 := by
    intro e he
    obtain ⟨⟨s, hkey⟩, j, hj⟩ := h e he
    exact ⟨(s, j), hkey, hj⟩
  choose! f hkey hdocument hwell hbeq using hmember
  have hrenders : List.Forall₂ Renders es (es.map f) := by
    rw [List.forall₂_map_right_iff, List.forall₂_same]
    refine fun e he => ⟨?_, hdocument e he⟩
    rw [hkey e he]
    exact keyText_text _ _
  -- The entries that come back: the keys that were there, each with a value equal to its own.
  let back : List (Value × Value) := es.map fun e => (e.1, ofJson (f e).2)
  have hback : (es.map f).map (Prod.map text ofJson) = back := by
    rw [List.map_map]
    exact List.map_congr_left fun e he => Prod.ext (hkey e he).symm rfl
  have hbackasc : SortedEntries.Ascending cmp back := List.pairwise_map.2 hasc
  have hdistinct : SortedEntries.Distinct compare (es.map f) := by
    have hkeys : SortedEntries.Distinct cmp ((es.map f).map (Prod.map text ofJson)) :=
      hback ▸ hbackasc.distinct
    refine (List.pairwise_map.1 hkeys).imp fun {m n} hne heq => hne ?_
    exact cmp_text_eq_iff.2 (Std.LawfulEqCmp.compare_eq_iff_eq.1 heq)
  refine ⟨.object (SortedEntries.ofPairs compare (es.map f)), ?_, ?_, ?_⟩
  · rw [toJson, entriesToJson_eq hrenders hdistinct fun _ _ => List.forall_mem_nil _,
      ← SortedEntries.ofPairs_eq]
  · refine Json.everywhere_object.2 ⟨SortedEntries.ofPairs_ascending _, fun m hm => ?_⟩
    obtain ⟨e, he, rfl⟩ := List.mem_map.1 (SortedEntries.mem_of_mem_ofPairs hm)
    exact hwell e he
  · have hperm := hdistinct.ofPairs_perm.map (Prod.map text ofJson)
    rw [hback] at hperm
    rw [ofJson_object, ofPairs, hbackasc.distinct.ofPairs_eq_of_perm hperm, hbackasc.ofPairs_eq,
      beq_iff, cmp_object]
    refine cmpEntries_of_forall₂ ?_
    rw [List.forall₂_map_left_iff, List.forall₂_same]
    exact fun e he => ⟨beq_refl _, hbeq e he⟩

/-- A value that documents can hold comes back from its document. -/
theorem comesBack {v : Value} (hord : v.Ordered) (h : v.DocumentLike) : v.ComesBack := by
  induction v using Value.induction with
  | flat v hv => exact comesBack_of_isFlat hv ((everywhere_of_isFlat hv).1 h)
  | array vs hvs =>
    obtain ⟨-, hord⟩ := everywhere_array.1 hord
    obtain ⟨-, h⟩ := everywhere_array.1 h
    exact comesBack_array fun v hv => hvs v hv (hord v hv) (h v hv)
  | object es hes =>
    obtain ⟨hasc, hord⟩ := everywhere_object.1 hord
    obtain ⟨hkeys, h⟩ := everywhere_object.1 h
    refine comesBack_object hasc fun e he => ⟨?_, (hes e he).2 (hord e he).2 (h e he).2⟩
    have hkey := hkeys e he
    cases e with
    | mk key v =>
      cases key with
      | string bytes =>
        obtain ⟨s, rfl⟩ := (everywhere_of_isFlat rfl).1 (h _ he).1
        exact ⟨s, rfl⟩
      | _ => cases hkey

/-- Rendering the value of a document gives the document, and the value of the document of a value
that documents can hold is equal to it. -/
theorem json_inverse :
    (∀ j : Json, j.WellFormed → (ofJson j).toJson = .ok j) ∧
      ∀ v : Value, v.Ordered → v.DocumentLike →
        ∃ j, v.toJson = .ok j ∧ j.WellFormed ∧ ofJson j == v :=
  ⟨fun _ h => toJson_ofJson h, fun _ hord h => comesBack hord h⟩

end

/-- A document with the greatest integer, a negative zero and names that ascend. -/
def portableDocument : Json :=
  .array [.number (.unsigned 18446744073709551615), .number (.float ⟨0x8000000000000000⟩),
    .object [("", .null), ("1", .number (.negative (-1)))]]

/-- A value with a float in single precision, a text key and a wide integer. -/
def portable : Value := .array [.float32 ⟨0x3dcccccd⟩, .object [(.text "k", .int64 7)]]

theorem json_inverse_portable :
    (ofJson portableDocument).toJson = .ok portableDocument ∧
      ∃ j, portable.toJson = .ok j ∧ j.WellFormed ∧ ofJson j == portable := by
  have hfloat : (float32 ⟨0x3dcccccd⟩).DocumentLike :=
    (everywhere_of_isFlat rfl).2 (show Exact.isFinite _ by decide +kernel)
  have hobject : (object [(.text "k", .int64 7)]).DocumentLike := by
    refine everywhere_object.2 ⟨List.forall_mem_singleton.2 rfl, List.forall_mem_singleton.2 ?_⟩
    exact ⟨(everywhere_of_isFlat rfl).2 ⟨"k", rfl⟩, (everywhere_of_isFlat rfl).2 trivial⟩
  have hlike : portable.DocumentLike :=
    everywhere_array.2 ⟨trivial, List.forall_mem_cons.2 ⟨hfloat, List.forall_mem_singleton.2 hobject⟩⟩
  exact ⟨json_inverse.1 portableDocument (by decide +kernel),
    json_inverse.2 portable (by decide +kernel) hlike⟩

end Value

end MessagePack
