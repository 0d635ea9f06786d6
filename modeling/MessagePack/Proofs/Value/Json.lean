import MessagePack.Proofs.Json.Documents
import MessagePack.Proofs.Text.Utf8
import MessagePack.Proofs.Value.Narrow
import MessagePack.Value.Json

/-!
# Values as JSON and back

Rendering reads an integer in 64 bits, signed or unsigned as it is, and writes the number that it
holds. So the widths of integers do not show in a document, nor in the text of a key.

The value of a document has the keys of an object in the order of their bytes, and rendering puts
the members into the order of their names. No two names are one key, so nothing gets lost on the
way.

* `Value.toJson_of_same`: values that differ in the widths of integers only have the same document.
* `Value.toJson_ofJson`: the value of a well-formed document has this document.
-/

namespace MessagePack

/-- A signed integer as a number is the integer that it holds. -/
theorem JsonNumber.ofSigned_ofInt {i : Int} (hmin : -2 ^ 63 ≤ i) (hmax : i < 2 ^ 63) :
    ofSigned (Int64.ofInt i) = ofInt i := by
  have hsign : Int64.ofInt i < 0 ↔ i < 0 := by
    rw [Int64.lt_iff_toInt_lt, Int64.toInt_ofInt_of_le hmin hmax, Int64.toInt_zero]
  unfold ofSigned ofInt
  simp only [hsign]
  split
  · rfl
  · refine congrArg unsigned (UInt64.toNat_inj.1 ?_)
    have hle : 0 ≤ Int64.ofInt i := by
      rw [Int64.le_iff_toInt_le, Int64.toInt_ofInt_of_le hmin hmax, Int64.toInt_zero]
      omega
    rw [Int64.toNat_toUInt64_of_le hle, Int64.toNatClampNeg, Int64.toInt_ofInt_of_le hmin hmax,
      UInt64.toNat_ofNat_of_lt' (show i.toNat < 2 ^ 64 by omega)]

theorem JsonNumber.ofInt_natCast (n : Nat) : ofInt n = .unsigned (UInt64.ofNat n) := by
  rw [ofInt, if_neg (by omega), Int.toNat_natCast]

namespace Value

theorem isString_of_int? {v : Value} {i : Int} (h : v.int? = some i) : v.isString = false := by
  cases v <;> first | rfl | cases h

section

variable [TextFormats]

/-- An integer as a document is the number that it holds, whatever its width. -/
theorem toJson_of_int? {v : Value} {i : Int} (h : v.int? = some i) :
    v.toJson = .ok (.number (.ofInt i)) := by
  have hsigned : ∀ i : Int, -2 ^ 63 ≤ i → i < 2 ^ 63 →
      (.ok (.number (.ofSigned (Int64.ofInt i))) : Except JsonError Json) =
        .ok (.number (.ofInt i)) := fun i hmin hmax => by
    rw [JsonNumber.ofSigned_ofInt hmin hmax]
  have hunsigned : ∀ n : Nat,
      (.ok (.number (.unsigned (.ofBitVec (.ofInt 64 n)))) : Except JsonError Json) =
        .ok (.number (.ofInt n)) := fun n => by
    rw [JsonNumber.ofInt_natCast, BitVec.ofInt_natCast]
    rfl
  cases v <;> simp only [int?, Option.some.injEq, reduceCtorEq] at h <;> subst h
  case int8 i =>
    have := i.le_toInt
    have := i.toInt_lt
    exact hsigned i.toInt (by omega) (by omega)
  case int16 i =>
    have := i.le_toInt
    have := i.toInt_lt
    exact hsigned i.toInt (by omega) (by omega)
  case int32 i =>
    have := i.le_toInt
    have := i.toInt_lt
    exact hsigned i.toInt (by omega) (by omega)
  case int64 i => exact hsigned i.toInt i.le_toInt i.toInt_lt
  all_goals exact hunsigned _

/-- A key that is not a string is its text. -/
theorem keyText_of_isString {v : Value} (h : v.isString = false)
    (document : Except JsonError Json) :
    keyText v document = document.map (TextFormats.write false) := by
  cases v <;> first | (cases document <;> rfl) | cases h

theorem itemsToJson_congr {vs ws : List Value}
    (h : List.Forall₂ (fun v w => v.toJson = w.toJson) vs ws) (seen : List Json) :
    itemsToJson vs seen = itemsToJson ws seen := by
  induction h generalizing seen with
  | nil => rfl
  | cons hv _ ih => simp only [itemsToJson, hv, ih]

theorem entriesToJson_congr {es fs : List (Value × Value)}
    (h : List.Forall₂ (fun e f => keyText e.1 e.1.toJson = keyText f.1 f.1.toJson ∧
      e.2.toJson = f.2.toJson) es fs) (members : List (String × Json)) :
    entriesToJson es members = entriesToJson fs members := by
  induction h generalizing members with
  | nil => rfl
  | cons he _ ih => simp only [entriesToJson, he, ih]

/-- Values that differ in the widths of integers only have the same document, as values and as keys,
or fail alike to have one. -/
theorem toJson_and_keyText_of_same {v w : Value} (h : v.Same w) :
    v.toJson = w.toJson ∧ ∀ document, keyText v document = keyText w document := by
  refine Same.induction ?int ?flat ?array ?object h
  case int =>
    intro v w i hv hw
    exact ⟨by rw [toJson_of_int? hv, toJson_of_int? hw], fun document => by
      rw [keyText_of_isString (isString_of_int? hv), keyText_of_isString (isString_of_int? hw)]⟩
  case flat => exact fun v _ => ⟨rfl, fun _ => rfl⟩
  case array =>
    intro vs ws h
    refine ⟨?_, fun _ => by rw [keyText_of_isString rfl, keyText_of_isString rfl]⟩
    simp only [toJson]
    rw [itemsToJson_congr (h.imp fun _ _ hv => hv.1)]
  case object =>
    intro es fs h
    refine ⟨?_, fun _ => by rw [keyText_of_isString rfl, keyText_of_isString rfl]⟩
    simp only [toJson]
    rw [entriesToJson_congr (h.imp fun e f he => ⟨by rw [he.1.1, he.1.2], he.2.1⟩)]

theorem toJson_of_same {v w : Value} (h : v.Same w) : v.toJson = w.toJson :=
  (toJson_and_keyText_of_same h).1

end

/-! ## Documents as values -/

theorem itemsOfJson_eq (js : List Json) (seen : List Value) :
    itemsOfJson js seen = seen.reverse ++ js.map ofJson := by
  induction js generalizing seen with
  | nil => rw [itemsOfJson, List.map_nil, List.append_nil]
  | cons j js ih =>
    rw [itemsOfJson, ih, List.reverse_cons, List.append_assoc, List.map_cons, List.singleton_append]

theorem membersOfJson_eq (ms : List (String × Json)) (seen : List (Value × Value)) :
    membersOfJson ms seen = seen.reverse ++ ms.map (Prod.map text ofJson) := by
  induction ms generalizing seen with
  | nil => rw [membersOfJson, List.map_nil, List.append_nil]
  | cons m ms ih =>
    rw [membersOfJson, ih, List.reverse_cons, List.append_assoc, List.map_cons,
      List.singleton_append]
    rfl

theorem ofJson_array (js : List Json) : ofJson (.array js) = .array (js.map ofJson) := by
  rw [ofJson, itemsOfJson_eq]
  rfl

theorem ofJson_object (ms : List (String × Json)) :
    ofJson (.object ms) = ofPairs (ms.map (Prod.map text ofJson)) := by
  rw [ofJson, membersOfJson_eq]
  rfl

theorem cmp_text (s t : String) : (text s).cmp (text t) = compare (utf8 s) (utf8 t) :=
  cmp_string _ _

/-- Texts are equal as keys only if they are the same. -/
theorem cmp_text_eq_iff {s t : String} : (text s).cmp (text t) = .eq ↔ s = t := by
  rw [cmp_text, Std.LawfulEqCmp.compare_eq_iff_eq]
  exact utf8_injective.eq_iff

theorem int?_ofJsonNumber_unsigned (n : UInt64) :
    (ofJsonNumber (.unsigned n)).int? = some (n.toNat : Int) := by
  rw [ofJsonNumber]
  split
  · rw [int?, Int64.toInt_ofNat_of_lt ‹_›]
  · rfl

/-- Where lists are related one by one, what is in the first is related to something in the other. -/
theorem exists_mem_of_forall₂ {α β : Type} {R : α → β → Prop} {as : List α} {bs : List β}
    (h : List.Forall₂ R as bs) {a : α} (ha : a ∈ as) : ∃ b ∈ bs, R a b := by
  obtain ⟨i, hi, rfl⟩ := List.getElem_of_mem ha
  have hi' : i < bs.length := h.length_eq ▸ hi
  exact ⟨bs[i], List.getElem_mem hi', h.get hi hi'⟩

section

variable [TextFormats]

theorem toJson_text (s : String) : (text s).toJson = .ok (.string s) := by
  rw [text, toJson, Text.decodeLossy_utf8]

theorem keyText_text (s : String) (document : Except JsonError Json) :
    keyText (text s) document = .ok s := by
  rw [text, keyText, Text.decodeLossy_utf8]

/-- A number comes back as it was, if it does not have two forms. -/
theorem toJson_ofJsonNumber {n : JsonNumber} (h : n.Canonical) :
    (ofJsonNumber n).toJson = .ok (.number n) := by
  cases n with
  | unsigned n =>
    rw [toJson_of_int? (int?_ofJsonNumber_unsigned n), JsonNumber.ofInt_natCast, UInt64.ofNat_toNat]
  | negative i =>
    have hneg : i.toInt < 0 := Int64.lt_iff_toInt_lt.1 h
    rw [ofJsonNumber, toJson_of_int? rfl, JsonNumber.ofInt, if_pos hneg, Int64.ofInt_toInt]
  | float x =>
    have hfinite : x.isFinite := h
    rw [ofJsonNumber, toJson, floatToJson, if_pos hfinite]

theorem itemsToJson_eq {vs : List Value} {js : List Json}
    (h : List.Forall₂ (fun v j => v.toJson = .ok j) vs js) (seen : List Json) :
    itemsToJson vs seen = .ok (seen.reverse ++ js) := by
  induction h generalizing seen with
  | nil => rw [itemsToJson, List.append_nil]
  | cons hv _ ih =>
    simp only [itemsToJson, hv, ih, List.reverse_cons, List.append_assoc, List.singleton_append]

/-- An entry has this text as its key and this document as its value. -/
def Renders (e : Value × Value) (m : String × Json) : Prop :=
  keyText e.1 e.1.toJson = .ok m.1 ∧ e.2.toJson = .ok m.2

/-- Where no two keys have the same text, all members are put in. -/
theorem entriesToJson_eq {es : List (Value × Value)} {ms : List (String × Json)}
    (h : List.Forall₂ Renders es ms) {members : List (String × Json)}
    (hdistinct : SortedEntries.Distinct compare ms)
    (hnew : ∀ m ∈ ms, ∀ n ∈ members, compare n.1 m.1 ≠ .eq) :
    entriesToJson es members = .ok (SortedEntries.insertAll compare ms members).reverse := by
  induction h generalizing members with
  | nil => rfl
  | @cons e m es ms he _ ih =>
    obtain ⟨hm, hdistinct⟩ := List.pairwise_cons.1 hdistinct
    obtain ⟨hfirst, hnew⟩ := List.forall_mem_cons.1 hnew
    have habsent : SortedEntries.find? compare m.1 members = none := by
      rw [SortedEntries.find?, Option.map_eq_none_iff, List.find?_eq_none]
      exact fun n hn => by simp [hfirst n hn]
    simp only [entriesToJson, he.1, he.2, habsent]
    refine ih hdistinct fun m' hm' n hn => ?_
    rcases SortedEntries.mem_insertDescending hn with rfl | hn
    · exact hm m' hm'
    · exact hnew m' hm' n hn

/-- A document without two forms of a number or two members of one name comes back as it was,
although an object keeps its entries in the order of their keys. -/
theorem toJson_ofJson {j : Json} (h : j.WellFormed) : (ofJson j).toJson = .ok j := by
  induction j using Json.induction with
  | flat j hj =>
    cases j with
    | null | bool b => rw [ofJson, toJson]
    | number n => rw [ofJson, toJson_ofJsonNumber ((Json.everywhere_of_isFlat hj).1 h)]
    | string s => rw [ofJson, toJson_text]
    | array js | object ms => cases hj
  | array js hjs =>
    obtain ⟨-, h⟩ := Json.everywhere_array.1 h
    have hitems : List.Forall₂ (fun v j => v.toJson = .ok j) (js.map ofJson) js := by
      rw [List.forall₂_map_left_iff, List.forall₂_same]
      exact fun j hj => hjs j hj (h j hj)
    rw [ofJson_array, toJson, itemsToJson_eq hitems, List.reverse_nil, List.nil_append]
  | object ms hms =>
    obtain ⟨hasc, h⟩ := Json.everywhere_object.1 h
    have hnames : SortedEntries.Ascending compare ms := hasc
    have hkeys : SortedEntries.Distinct cmp (ms.map (Prod.map text ofJson)) := by
      refine List.pairwise_map.2 (hnames.distinct.imp fun {m n} hne heq => hne ?_)
      rw [cmp_text_eq_iff.1 heq]
      exact Std.ReflCmp.compare_self
    have hrenders : List.Forall₂ Renders (ms.map (Prod.map text ofJson)) ms := by
      rw [List.forall₂_map_left_iff, List.forall₂_same]
      exact fun m hm => ⟨keyText_text m.1 _, hms m hm (h m hm)⟩
    -- The entries are the members in some order, in which no two have one name either.
    obtain ⟨ms', hrenders', hperm⟩ := List.perm_comp_forall₂ hkeys.ofPairs_perm hrenders
    have hmembers := entriesToJson_eq hrenders' (hnames.distinct.perm hperm)
      fun _ _ => List.forall_mem_nil _
    rw [ofJson_object, ofPairs, toJson, hmembers, ← SortedEntries.ofPairs_eq,
      hnames.distinct.ofPairs_eq_of_perm hperm, hnames.ofPairs_eq]

end

theorem isFlat_ofJson {j : Json} (h : j.isFlat) : (ofJson j).isFlat := by
  cases j with
  | number n =>
    rw [ofJson]
    cases n with
    | unsigned n => rw [ofJsonNumber]; split <;> rfl
    | _ => rfl
  | array js | object ms => cases h
  | _ => rw [ofJson]; rfl

/-- An object has its entries from the members of the document. -/
theorem exists_of_mem_ofPairs {ms : List (String × Json)} {e : Value × Value}
    (h : e ∈ SortedEntries.ofPairs cmp (ms.map (Prod.map text ofJson))) :
    ∃ m ∈ ms, e.1 = text m.1 ∧ e.2 = ofJson m.2 := by
  obtain ⟨m, hm, rfl⟩ := List.mem_map.1 (SortedEntries.mem_of_mem_ofPairs h)
  exact ⟨m, hm, rfl, rfl⟩

theorem ordered_ofJson (j : Json) : (ofJson j).Ordered := by
  induction j using Json.induction with
  | flat j hj => exact ordered_of_isFlat (isFlat_ofJson hj)
  | array js hjs =>
    rw [ofJson_array]
    exact everywhere_array.2 ⟨List.Pairwise.nil, List.forall_mem_map.2 hjs⟩
  | object ms hms =>
    rw [ofJson_object]
    refine ordered_ofPairs (List.forall_mem_map.2 fun m hm => ?_)
    exact ⟨ordered_of_isFlat rfl, hms m hm⟩

/-- Lengths of a document are not exceeded by those of its value. -/
theorem encodable_ofJson {j : Json} (h : j.Fits) : (ofJson j).Encodable := by
  have htext : ∀ s : String, s.utf8ByteSize < 2 ^ 32 → (text s).Encodable := fun s hs => by
    refine (everywhere_of_isFlat rfl).2 ?_
    show (utf8 s).length < 2 ^ 32
    rwa [length_utf8]
  induction j using Json.induction with
  | flat j hj =>
    have hzero : (ofJson j).wireLength = 0 → (ofJson j).Encodable := fun hlen => by
      refine (everywhere_of_isFlat (isFlat_ofJson hj)).2 ?_
      rw [hlen]
      exact Nat.two_pow_pos 32
    cases j with
    | null | bool b => exact hzero (by rw [ofJson]; rfl)
    | number n =>
      refine hzero ?_
      rw [ofJson]
      cases n with
      | unsigned n => rw [ofJsonNumber]; split <;> rfl
      | _ => rfl
    | string s =>
      rw [ofJson]
      exact htext s ((Json.everywhere_of_isFlat hj).1 h)
    | array js | object ms => cases hj
  | array js hjs =>
    obtain ⟨hlen, h⟩ := Json.everywhere_array.1 h
    rw [ofJson_array]
    refine everywhere_array.2 ⟨?_, List.forall_mem_map.2 fun j hj => hjs j hj (h j hj)⟩
    show (js.map ofJson).length < 2 ^ 32
    rwa [List.length_map]
  | object ms hms =>
    obtain ⟨⟨hlen, hnames⟩, h⟩ := Json.everywhere_object.1 h
    rw [ofJson_object]
    refine everywhere_object.2 ⟨?_, fun e he => ?_⟩
    · refine Nat.lt_of_le_of_lt (SortedEntries.ofPairs_subperm _).length_le ?_
      rwa [List.length_map]
    · obtain ⟨m, hm, hkey, hvalue⟩ := exists_of_mem_ofPairs he
      rw [hkey, hvalue]
      exact ⟨htext m.1 (hnames m hm), hms m hm (h m hm)⟩

theorem depth_of_isFlat {v : Value} (h : v.isFlat) : v.depth = 0 := by
  cases v <;> first | rfl | cases h

/-- A value is as deep as its document is nested, at most. -/
theorem depth_ofJson_le {j : Json} {n : Nat} (h : j.nesting ≤ n) : (ofJson j).depth ≤ n := by
  induction j using Json.induction generalizing n with
  | flat j hj =>
    rw [depth_of_isFlat (isFlat_ofJson hj)]
    exact n.zero_le
  | array js hjs =>
    obtain ⟨n, rfl⟩ : ∃ k, n = k + 1 :=
      Nat.exists_eq_succ_of_ne_zero (Nat.ne_zero_of_lt (Nat.lt_of_lt_of_le (Nat.succ_pos _) h))
    rw [ofJson_array]
    refine depth_array_le (List.forall_mem_map.2 fun j hj => Nat.lt_succ_of_le ?_)
    exact hjs j hj (Json.nesting_array_le.1 h j hj)
  | object ms hms =>
    obtain ⟨n, rfl⟩ : ∃ k, n = k + 1 :=
      Nat.exists_eq_succ_of_ne_zero (Nat.ne_zero_of_lt (Nat.lt_of_lt_of_le (Nat.succ_pos _) h))
    rw [ofJson_object]
    refine depth_object_le fun e he => ?_
    obtain ⟨m, hm, hkey, hvalue⟩ := exists_of_mem_ofPairs he
    rw [hkey, hvalue]
    exact ⟨Nat.succ_pos n, Nat.lt_succ_of_le (hms m hm (Json.nesting_object_le.1 h m hm))⟩

end Value

end MessagePack
