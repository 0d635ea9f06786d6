import MessagePack.Document
import MessagePack.Proofs.Value.Json

/-!
# Rendering keeps every entry

Different keys can be rendered as the same text: an integer and the text of its digits, nil and
infinities, byte strings with faults in different places. An object with two such keys has no
document, nor has any value that it occurs in, as an item, under a key or inside one. There is no
other reason not to have a document, and a document has one member for each entry.

* `Value.Collides`: two entries of an object have one text.
* `Value.toJson_keeps_entries`: which values have a document, and what is in it.
-/

namespace MessagePack.Value

section

variable [TextFormats]

/-! ## Texts of keys -/

/-- The text under which an entry with this key is rendered: that of a string, with faults replaced,
and the compact document of anything else. -/
inductive KeyText : Value → String → Prop
  | string (bytes : Bytes) : KeyText (.string bytes) (Text.decodeLossy bytes)
  | document {key : Value} {j : Json} (hkey : key.isString = false) (hdocument : key.toJson = .ok j) :
      KeyText key (TextFormats.write false j)

/-- A string has a document, whatever its bytes. -/
theorem cases_keyText (key : Value) :
    (∃ bytes, key = .string bytes ∧ keyText key key.toJson = .ok (Text.decodeLossy bytes)) ∨
      key.isString = false ∧ keyText key key.toJson = key.toJson.map (TextFormats.write false) := by
  by_cases hkey : key.isString
  · cases key with
    | string bytes => exact .inl ⟨bytes, rfl, rfl⟩
    | _ => cases hkey
  · rw [Bool.not_eq_true] at hkey
    exact .inr ⟨hkey, keyText_of_isString hkey _⟩

theorem keyText_eq_ok_iff {key : Value} {name : String} :
    keyText key key.toJson = .ok name ↔ KeyText key name := by
  constructor
  · intro h
    rcases cases_keyText key with ⟨bytes, rfl, htext⟩ | ⟨hkey, htext⟩ <;> rw [htext] at h
    · cases h
      exact .string bytes
    · cases hdocument : key.toJson with
      | ok j =>
        rw [hdocument] at h
        cases h
        exact .document hkey hdocument
      | error e =>
        rw [hdocument] at h
        cases h
  · intro h
    cases h with
    | string bytes => rfl
    | document hkey hdocument => rw [keyText_of_isString hkey, hdocument]; rfl

/-- A key without a text has no document either. -/
theorem toJson_of_keyText_error {key : Value} {e : JsonError}
    (h : keyText key key.toJson = .error e) : key.toJson = .error e := by
  rcases cases_keyText key with ⟨bytes, rfl, htext⟩ | ⟨-, htext⟩ <;> rw [htext] at h
  · cases h
  · cases hdocument : key.toJson <;> rw [hdocument] at h <;> cases h
    rfl

theorem KeyText.exists_toJson {key : Value} {name : String} (h : KeyText key name) :
    ∃ j, key.toJson = .ok j := by
  cases h with
  | string bytes => exact ⟨_, by rw [toJson]⟩
  | document hkey hdocument => exact ⟨_, hdocument⟩

/-- Two entries of the object have this text as keys. -/
def Collides (n : Value) (name : String) : Prop :=
  ∃ e f, [e, f].Sublist n.entries ∧ KeyText e.1 name ∧ KeyText f.1 name

/-! ## Items -/

theorem documents_of_itemsToJson {vs : List Value} {seen js : List Json}
    (h : itemsToJson vs seen = .ok js) :
    ∃ ds, List.Forall₂ (fun v j => v.toJson = .ok j) vs ds ∧ js = seen.reverse ++ ds := by
  induction vs generalizing seen with
  | nil =>
    cases h
    exact ⟨[], .nil, (List.append_nil _).symm⟩
  | cons v vs ih =>
    rw [itemsToJson] at h
    split at h
    · obtain ⟨ds, hds, rfl⟩ := ih h
      exact ⟨_ :: ds, .cons ‹_› hds, by simp⟩
    · cases h

theorem exists_of_itemsToJson_error {vs : List Value} {seen : List Json} {e : JsonError}
    (h : itemsToJson vs seen = .error e) : ∃ v ∈ vs, v.toJson = .error e := by
  induction vs generalizing seen with
  | nil => cases h
  | cons v vs ih =>
    rw [itemsToJson] at h
    split at h
    · obtain ⟨w, hw, he⟩ := ih h
      exact ⟨w, List.mem_cons_of_mem _ hw, he⟩
    · cases h
      exact ⟨v, List.mem_cons_self, ‹_›⟩

/-! ## Entries -/

/-- What the first entry comes to: it cannot be rendered, its text is taken, or it is put in and the
others follow. -/
theorem cases_of_entriesToJson_cons (e : Value × Value) (es : List (Value × Value))
    (members : List (String × Json)) :
    (∃ err, entriesToJson (e :: es) members = .error err ∧
      (e.1.toJson = .error err ∨ e.2.toJson = .error err)) ∨
    (∃ name, entriesToJson (e :: es) members = .error (.duplicateKey name) ∧ KeyText e.1 name ∧
      ∃ m ∈ members, m.1 = name) ∨
    ∃ m, Renders e m ∧ (∀ n ∈ members, n.1 ≠ m.1) ∧
      entriesToJson (e :: es) members =
        entriesToJson es (SortedEntries.insertDescending compare m.1 m.2 members) := by
  rw [entriesToJson]
  cases htext : keyText e.1 e.1.toJson with
  | error err => exact .inl ⟨err, rfl, .inl (toJson_of_keyText_error htext)⟩
  | ok name =>
    dsimp only
    split
    case isTrue htaken =>
      refine .inr (.inl ⟨name, rfl, keyText_eq_ok_iff.1 htext, ?_⟩)
      simpa [SortedEntries.find?, Std.LawfulEqCmp.compare_eq_iff_eq] using htaken
    case isFalse hfree =>
      cases hdocument : e.2.toJson with
      | error err => exact .inl ⟨err, rfl, .inr rfl⟩
      | ok j =>
        refine .inr (.inr ⟨(name, j), ⟨htext, hdocument⟩, fun n hn heq => hfree ?_, rfl⟩)
        simp only [SortedEntries.find?, Option.isSome_map, List.find?_isSome]
        exact ⟨n, hn, by simp [heq]⟩

/-- Rendered entries have different texts, which are also different from those taken before. -/
theorem members_of_entriesToJson {es : List (Value × Value)} {members ms : List (String × Json)}
    (hdesc : SortedEntries.Descending compare members) (h : entriesToJson es members = .ok ms) :
    ∃ ds, List.Forall₂ Renders es ds ∧ SortedEntries.Distinct compare ds ∧
      (∀ m ∈ ds, ∀ n ∈ members, n.1 ≠ m.1) ∧
      ms = (SortedEntries.insertAll compare ds members).reverse := by
  induction es generalizing members with
  | nil =>
    cases h
    exact ⟨[], .nil, .nil, List.forall_mem_nil _, rfl⟩
  | cons e es ih =>
    rcases cases_of_entriesToJson_cons e es members with
      ⟨err, herror, -⟩ | ⟨name, herror, -⟩ | ⟨m, hm, hnew, hstep⟩
    · cases herror.symm.trans h
    · cases herror.symm.trans h
    · rw [hstep] at h
      obtain ⟨ds, hds, hdistinct, hapart, rfl⟩ :=
        ih (SortedEntries.insertDescending_ordered m.1 m.2 hdesc) h
      have hne : ∀ {s t : String}, compare s t ≠ .eq ↔ s ≠ t := by
        simp [Std.LawfulEqCmp.compare_eq_iff_eq]
      refine ⟨m :: ds, .cons hm hds, List.pairwise_cons.2 ⟨fun d hd => ?_, hdistinct⟩, ?_, rfl⟩
      · exact hne.2 (hapart d hd m ((SortedEntries.mem_insertDescending_iff hdesc).2 (.inl rfl)))
      · refine List.forall_mem_cons.2 ⟨hnew, fun d hd n hn => hapart d hd n ?_⟩
        exact (SortedEntries.mem_insertDescending_iff hdesc).2 (.inr ⟨hn, hne.2 (hnew n hn).symm⟩)

/-- Entries cannot be rendered because one of their parts cannot, or because a text is taken, by a
member that was there before or by another entry. -/
theorem cases_of_entriesToJson {es : List (Value × Value)} {members : List (String × Json)}
    {err : JsonError} (h : entriesToJson es members = .error err) :
    (∃ e ∈ es, e.1.toJson = .error err ∨ e.2.toJson = .error err) ∨
      ∃ name, err = .duplicateKey name ∧
        ((∃ e ∈ es, KeyText e.1 name ∧ ∃ m ∈ members, m.1 = name) ∨
          (object es).Collides name) := by
  induction es generalizing members with
  | nil => cases h
  | cons e es ih =>
    rcases cases_of_entriesToJson_cons e es members with
      ⟨err', herror, hpart⟩ | ⟨name, herror, htext, htaken⟩ | ⟨m, hm, hnew, hstep⟩
    · cases herror.symm.trans h
      exact .inl ⟨e, List.mem_cons_self, hpart⟩
    · cases herror.symm.trans h
      exact .inr ⟨name, rfl, .inl ⟨e, List.mem_cons_self, htext, htaken⟩⟩
    · rw [hstep] at h
      rcases ih h with ⟨f, hf, hpart⟩ | ⟨name, rfl, ⟨f, hf, htext, n, hn, rfl⟩ | hcollides⟩
      · exact .inl ⟨f, List.mem_cons_of_mem _ hf, hpart⟩
      · refine .inr ⟨n.1, rfl, ?_⟩
        rcases SortedEntries.mem_insertDescending hn with rfl | hn
        · refine .inr ⟨e, f, ?_, keyText_eq_ok_iff.1 hm.1, htext⟩
          exact (List.singleton_sublist.2 hf).cons_cons e
        · exact .inl ⟨f, List.mem_cons_of_mem _ hf, htext, n, hn, rfl⟩
      · obtain ⟨f, g, hsub, hf, hg⟩ := hcollides
        exact .inr ⟨name, rfl, .inr ⟨f, g, hsub.cons e, hf, hg⟩⟩

/-- Where rendered entries have different texts, no two of them collide. -/
theorem not_collides_of_renders {es : List (Value × Value)} {ds : List (String × Json)}
    (h : List.Forall₂ Renders es ds) (hdistinct : SortedEntries.Distinct compare ds)
    (name : String) : ¬(object es).Collides name := by
  have htexts : es.map (fun e => keyText e.1 e.1.toJson) = ds.map (fun m => .ok m.1) := by
    rw [← List.forall₂_eq_eq_eq, List.forall₂_map_left_iff, List.forall₂_map_right_iff]
    exact h.imp fun _ _ hrenders => hrenders.1
  have hpairwise : es.Pairwise fun e f => keyText e.1 e.1.toJson ≠ keyText f.1 f.1.toJson := by
    rw [← List.pairwise_map (f := fun e : Value × Value => keyText e.1 e.1.toJson) (R := (· ≠ ·)),
      htexts, List.pairwise_map]
    refine hdistinct.imp fun hne heq => hne ?_
    rw [Except.ok.inj heq]
    exact Std.ReflCmp.compare_self
  rintro ⟨e, f, hsub, he, hf⟩
  refine List.pairwise_iff_forall_sublist.1 hpairwise hsub ?_
  rw [keyText_eq_ok_iff.2 he, keyText_eq_ok_iff.2 hf]

/-! ## Documents -/

/-- The members of a document against the entries of an object: as many members as entries, no two
of one name, and under the text of each key the document of its value. -/
structure MembersOf (es : List (Value × Value)) (ms : List (String × Json)) : Prop where
  length_eq : ms.length = es.length
  ascending : SortedEntries.Ascending compare ms
  find : ∀ e ∈ es, ∃ name j, KeyText e.1 name ∧ e.2.toJson = .ok j ∧
    SortedEntries.find? compare name ms = some j

theorem membersOf_of_renders {es : List (Value × Value)} {ds : List (String × Json)}
    (h : List.Forall₂ Renders es ds) (hdistinct : SortedEntries.Distinct compare ds) :
    MembersOf es (SortedEntries.ofPairs compare ds) where
  length_eq := by rw [hdistinct.ofPairs_perm.length_eq, h.length_eq]
  ascending := SortedEntries.ofPairs_ascending ds
  find e he := by
    obtain ⟨m, hm, hrenders⟩ := exists_mem_of_forall₂ h he
    refine ⟨m.1, m.2, keyText_eq_ok_iff.1 hrenders.1, hrenders.2, ?_⟩
    rw [SortedEntries.find?, Option.map_eq_some_iff]
    refine ⟨m, (SortedEntries.ofPairs_ascending ds).distinct.find?_eq_some_iff.2 ⟨?_, ?_⟩, rfl⟩
    · exact hdistinct.mem_ofPairs_iff.2 hm
    · exact Std.ReflCmp.compare_self

theorem documents_of_array {vs : List Value} {d : Json} (h : (array vs).toJson = .ok d) :
    ∃ js, List.Forall₂ (fun v j => v.toJson = .ok j) vs js ∧ d = .array js := by
  rw [toJson] at h
  split at h
  · obtain ⟨ds, hds, heq⟩ := documents_of_itemsToJson ‹_›
    cases h
    exact ⟨ds, hds, congrArg Json.array heq⟩
  · cases h

theorem members_of_object {es : List (Value × Value)} {d : Json} (h : (object es).toJson = .ok d) :
    ∃ ds, List.Forall₂ Renders es ds ∧ SortedEntries.Distinct compare ds ∧
      d = .object (SortedEntries.ofPairs compare ds) := by
  rw [toJson] at h
  split at h
  · obtain ⟨ds, hds, hdistinct, -, rfl⟩ := members_of_entriesToJson .nil ‹_›
    cases h
    exact ⟨ds, hds, hdistinct, by rw [SortedEntries.ofPairs_eq]⟩
  · cases h

theorem exists_toJson_of_isFlat {v : Value} (h : v.isFlat) : ∃ j, v.toJson = .ok j := by
  cases v <;> first | exact ⟨_, by rw [toJson]⟩ | cases h

/-- Where a value has a document, so has every node of it. -/
theorem everywhere_of_toJson {v : Value} {j : Json} (h : v.toJson = .ok j) :
    v.Everywhere fun n => ∃ d, n.toJson = .ok d := by
  induction v using Value.induction generalizing j with
  | flat v hv => exact (everywhere_of_isFlat hv).2 ⟨j, h⟩
  | array vs hvs =>
    obtain ⟨js, hjs, -⟩ := documents_of_array h
    refine everywhere_array.2 ⟨⟨j, h⟩, fun v hv => ?_⟩
    obtain ⟨d, -, hd⟩ := exists_mem_of_forall₂ hjs hv
    exact hvs v hv hd
  | object es hes =>
    obtain ⟨ds, hds, hdistinct, -⟩ := members_of_object h
    refine everywhere_object.2 ⟨⟨j, h⟩, fun e he => ?_⟩
    obtain ⟨name, d, htext, hdocument, -⟩ := (membersOf_of_renders hds hdistinct).find e he
    obtain ⟨k, hkey⟩ := htext.exists_toJson
    exact ⟨(hes e he).1 hkey, (hes e he).2 hdocument⟩

/-- A value without a document has two entries somewhere with the text that is reported. -/
theorem exists_collides_of_toJson {v : Value} {err : JsonError} (h : v.toJson = .error err) :
    ∃ name, err = .duplicateKey name ∧ ∃ n ∈ v.nodes, n.Collides name := by
  induction v using Value.induction generalizing err with
  | flat v hv =>
    obtain ⟨j, hj⟩ := exists_toJson_of_isFlat hv
    cases hj.symm.trans h
  | array vs hvs =>
    rw [toJson] at h
    split at h
    · cases h
    · cases h
      obtain ⟨v, hv, herror⟩ := exists_of_itemsToJson_error ‹_›
      obtain ⟨name, herr, n, hn, hcollides⟩ := hvs v hv herror
      exact ⟨name, herr, n, List.mem_cons_of_mem _ (mem_nodesOfItems.2 ⟨v, hv, hn⟩), hcollides⟩
  | object es hes =>
    rw [toJson] at h
    split at h
    · cases h
    · cases h
      have hpart : ∀ n, (∃ e ∈ es, n ∈ e.1.nodes ∨ n ∈ e.2.nodes) → n ∈ (object es).nodes :=
        fun n hn => List.mem_cons_of_mem _ (mem_nodesOfEntries.2 hn)
      rcases cases_of_entriesToJson ‹_› with
        ⟨e, he, herror | herror⟩ | ⟨name, herr, ⟨e, he, -, m, hm, -⟩ | hcollides⟩
      · obtain ⟨name, herr, n, hn, hcollides⟩ := (hes e he).1 herror
        exact ⟨name, herr, n, hpart n ⟨e, he, .inl hn⟩, hcollides⟩
      · obtain ⟨name, herr, n, hn, hcollides⟩ := (hes e he).2 herror
        exact ⟨name, herr, n, hpart n ⟨e, he, .inr hn⟩, hcollides⟩
      · cases hm
      · exact ⟨name, herr, object es, List.mem_cons_self, hcollides⟩

theorem not_collides_of_toJson {n : Value} {d : Json} (h : n.toJson = .ok d) (name : String) :
    ¬n.Collides name := by
  cases n with
  | object es =>
    obtain ⟨ds, hds, hdistinct, -⟩ := members_of_object h
    exact not_collides_of_renders hds hdistinct name
  | _ =>
    rintro ⟨e, f, hsub, -⟩
    cases hsub

/-- A value lacks a document exactly if two entries of an object somewhere in it have one text, and
such a text is reported. Otherwise every array in it becomes the documents of its items, and every
object becomes as many members as it has entries, the text of each key with the document of its
value. -/
theorem toJson_keeps_entries (v : Value) :
    (∀ name, v.toJson = .error (.duplicateKey name) → ∃ n ∈ v.nodes, n.Collides name) ∧
    ((∃ name, v.toJson = .error (.duplicateKey name)) ↔ ∃ n ∈ v.nodes, ∃ name, n.Collides name) ∧
    ((∃ j, v.toJson = .ok j) ↔ ∀ n ∈ v.nodes, ∀ name, ¬n.Collides name) ∧
    ∀ j, v.toJson = .ok j →
      (∀ vs, .array vs ∈ v.nodes → ∃ js, (array vs).toJson = .ok (.array js) ∧
        List.Forall₂ (fun v j => v.toJson = .ok j) vs js) ∧
      ∀ es, .object es ∈ v.nodes → ∃ ms, (object es).toJson = .ok (.object ms) ∧
        MembersOf es ms := by
  have hok : ∀ j, v.toJson = .ok j → ∀ n ∈ v.nodes, ∀ name, ¬n.Collides name := fun j h n hn => by
    obtain ⟨d, hd⟩ := everywhere_of_toJson h n hn
    exact not_collides_of_toJson hd
  have herror : ∀ err, v.toJson = .error err →
      ∃ name, err = .duplicateKey name ∧ ∃ n ∈ v.nodes, n.Collides name :=
    fun err h => exists_collides_of_toJson h
  refine ⟨fun name h => ?_, ⟨?_, ?_⟩, ⟨fun ⟨j, h⟩ => hok j h, ?_⟩, fun j h => ⟨?_, ?_⟩⟩
  · obtain ⟨_, ⟨⟩, hcollides⟩ := herror _ h
    exact hcollides
  · rintro ⟨name, h⟩
    obtain ⟨_, ⟨⟩, n, hn, hcollides⟩ := herror _ h
    exact ⟨n, hn, name, hcollides⟩
  · rintro ⟨n, hn, name, hcollides⟩
    cases h : v.toJson with
    | ok j => exact absurd hcollides (hok j h n hn name)
    | error err =>
      obtain ⟨name, rfl, -⟩ := herror err h
      exact ⟨name, rfl⟩
  · intro hnone
    cases h : v.toJson with
    | ok j => exact ⟨j, rfl⟩
    | error err =>
      obtain ⟨name, -, n, hn, hcollides⟩ := herror err h
      exact absurd hcollides (hnone n hn name)
  · intro vs hvs
    obtain ⟨d, hd⟩ := everywhere_of_toJson h _ hvs
    obtain ⟨js, hjs, rfl⟩ := documents_of_array hd
    exact ⟨js, hd, hjs⟩
  · intro es hes
    obtain ⟨d, hd⟩ := everywhere_of_toJson h _ hes
    obtain ⟨ds, hds, hdistinct, rfl⟩ := members_of_object hd
    exact ⟨_, hd, membersOf_of_renders hds hdistinct⟩

end

/-- An object under an integer key and a text key that are rendered alike, used as a key itself. -/
def tangled : Value :=
  .array [.object [(.object [(.uint8 1, .nil), (.text "1", .nil)], .bool true)]]

/-- An integer key, an infinite one and a text key, which are rendered apart. -/
def untangled : List (Value × Value) :=
  [(.uint8 1, .array []), (.float64 ⟨0x7ff0000000000000⟩, .nil), (.text "a", .bool true)]

/-- The text that the keys of the inner object share is reported; the other object keeps its three
entries. -/
theorem toJson_keeps_entries_tangled :
    tangled.toJson = .error (.duplicateKey "1") ∧ (∃ n ∈ tangled.nodes, n.Collides "1") ∧
      ∃ ms, (object untangled).toJson = .ok (.object ms) ∧ MembersOf untangled ms := by
  have herror : tangled.toJson = .error (.duplicateKey "1") := rfl
  have hok : (object untangled).toJson = .ok (.object
      [("1", .array []), ("a", .bool true), ("null", .null)]) := rfl
  refine ⟨herror, (toJson_keeps_entries tangled).1 "1" herror, ?_⟩
  exact ((toJson_keeps_entries (object untangled)).2.2.2 _ hok).2 untangled List.mem_cons_self

end MessagePack.Value
