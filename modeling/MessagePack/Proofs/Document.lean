import MessagePack.Document
import MessagePack.Proofs.Json.Parsing
import MessagePack.Proofs.Json.Printing
import MessagePack.Proofs.Value.Json
import MessagePack.Proofs.Wire.RoundTrip
import MessagePack.Proofs.Wire.Sequence

/-!
# Documents through the encoding

Encoding changes the widths of integers and nothing else, and widths do not show in a document. So
a decoded value has the document of the value that was encoded (`toJson_of_decode_encode`), and
unpacking what was packed gives the document back (`unpack_pack`) if the library that reads texts is
strict. If the one that writes documents leaves no line feed in them, each value that is unpacked is
a line (`unpack_lines`). The reader and the writer of this library do what is asked of them.
-/

namespace MessagePack

/-! ## Text formats -/

namespace TextFormats

variable [TextFormats]

/-- What a strict reader makes sure of: no number has two forms, the names of every object strictly
ascend, and no more than 127 arrays and objects are one inside the other. -/
structure StrictReader : Prop where
  wellFormed {text : String} {j : Json} : read? text = some j → j.WellFormed
  nesting_lt {text : String} {j : Json} : read? text = some j → j.nesting < 128

/-- Compact documents are written without control characters: those in strings are escaped, and
there is no white space between the parts. -/
structure PlainWriter : Prop where
  compact (j : Json) : Json.Plain (write false j).toList

end TextFormats

/-- The reader of the commands refuses documents that are nested deeper, and of members with one
name it keeps the last. -/
theorem TextFormats.strictReader_standard : StrictReader where
  wellFormed h := (Json.parsed_spec h).1
  nesting_lt h := Nat.lt_succ_of_le (Json.parsed_spec h).2

theorem TextFormats.plainWriter_standard : PlainWriter where
  compact := Json.plain_text

/-! ## Decoded values -/

section

variable [TextFormats]

/-- A value and what is decoded from its encoding have the same document, or the same two keys keep
them from having one. -/
theorem toJson_of_decode_encode {v : Value} {maxDepth : Nat} (henc : v.Encodable)
    (hord : v.Ordered) (hdepth : v.depth ≤ maxDepth) :
    ∃ bs w, encode v = .ok bs ∧ decode maxDepth bs = .ok (w, bs.length) ∧ w.toJson = v.toJson := by
  obtain ⟨bs, hencode, hdecode⟩ := decode_encode_narrow henc hord hdepth
  exact ⟨bs, v.narrow, hencode, hdecode, (Value.toJson_of_same v.same_narrow).symm⟩

end

/-- A wide integer, and an object with an integer key and a text key that render alike. -/
def colliding : Value :=
  .array [.int64 5, .object [(.int32 7, .uint64 8), (.text "7", .nil)]]

/-- A value without a document: the text of the integer key, wide as it is, is the text key. -/
theorem toJson_of_decode_encode_colliding :
    colliding.toJson = .error (.duplicateKey "7") ∧
      ∃ bs w, encode colliding = .ok bs ∧ decode 2 bs = .ok (w, bs.length) ∧
        w.toJson = colliding.toJson :=
  ⟨rfl,
    toJson_of_decode_encode (by decide +kernel) (by decide +kernel) (by decide +kernel)⟩

/-! ## Packing and unpacking -/

section

variable [TextFormats]

/-- With a strict reader, every document of a text can be packed if its lengths fit, and unpacking
gives the document back, compact or indented, with a line feed. -/
theorem unpack_pack (hstrict : TextFormats.StrictReader) {text : String} {j : Json}
    (hread : TextFormats.read? text = some j) (hfits : j.Fits) :
    ∃ bs, pack text = .ok bs ∧
      ∀ pretty, unpack bs pretty = .ok (TextFormats.write pretty j ++ "\n") := by
  have hwell : j.WellFormed := hstrict.wellFormed hread
  have hdepth : (Value.ofJson j).depth ≤ defaultMaxDepth :=
    Nat.le_trans (Value.depth_ofJson_le (Nat.le_of_lt (hstrict.nesting_lt hread))) (by decide)
  obtain ⟨bs, hencode, hdecode⟩ :=
    decode_encode_narrow (Value.encodable_ofJson hfits) (Value.ordered_ofJson j) hdepth
  have hdocument : (Value.ofJson j).narrow.toJson = .ok j := by
    rw [← Value.toJson_of_same (Value.same_narrow _), Value.toJson_ofJson hwell]
  refine ⟨bs, ?_, fun pretty => ?_⟩
  · simp only [pack, hread, hencode]
  · rw [unpack, decodeAll_of_decode hdecode]
    simp only [renderLines, hdocument, String.empty_append]

end

/-- A text with white space, an escape, the greatest integer and a name that comes twice. -/
def sample : String := "[18446744073709551615, \x7b\"b\": [], \"a\": -1, \"b\": \"\\u00e9\"\x7d]"

/-- The document of the text. -/
def sampleDocument : Json :=
  .array [.number (.unsigned 18446744073709551615),
    .object [("a", .number (.negative (-1))), ("b", .string "é")]]

theorem unpack_pack_sample :
    Json.parse? sample = some sampleDocument ∧
      ∃ bs, pack sample = .ok bs ∧ ∀ pretty, unpack bs pretty =
        .ok (sampleDocument.text pretty ++ "\n") :=
  have hread : Json.parse? sample = some sampleDocument := rfl
  ⟨hread, unpack_pack TextFormats.strictReader_standard hread (by decide +kernel)⟩

/-! ## Lines -/

section

variable [TextFormats]

/-- Either all values have documents, or there is a first one without. -/
theorem rendered_or_stuck (vs : List Value) :
    (∃ js, List.Forall₂ (fun v j => v.toJson = .ok j) vs js) ∨
      ∃ front v back e, vs = front ++ v :: back ∧ (∀ u ∈ front, ∃ j, u.toJson = .ok j) ∧
        v.toJson = .error e := by
  induction vs with
  | nil => exact .inl ⟨[], .nil⟩
  | cons v vs ih =>
    cases hv : v.toJson with
    | error e => exact .inr ⟨[], v, vs, e, rfl, List.forall_mem_nil _, hv⟩
    | ok j =>
      rcases ih with ⟨js, hjs⟩ | ⟨front, w, back, e, rfl, hfront, hw⟩
      · exact .inl ⟨j :: js, .cons hv hjs⟩
      · exact .inr ⟨v :: front, w, back, e, rfl, List.forall_mem_cons.2 ⟨⟨j, hv⟩, hfront⟩, hw⟩

theorem renderLines_of_documents (pretty : Bool) {vs : List Value} {js : List Json}
    (h : List.Forall₂ (fun v j => v.toJson = .ok j) vs js) (out : String) :
    ∃ text, renderLines pretty vs out = .ok text ∧
      text.toList =
        out.toList ++ js.flatMap fun j => (TextFormats.write pretty j).toList ++ ['\n'] := by
  induction h generalizing out with
  | nil => exact ⟨out, rfl, (List.append_nil _).symm⟩
  | @cons v j vs js hv _ ih =>
    obtain ⟨text, htext, hlist⟩ := ih (out ++ TextFormats.write pretty j ++ "\n")
    refine ⟨text, by rw [renderLines, hv]; exact htext, ?_⟩
    rw [hlist, List.flatMap_cons, String.toList_append, String.toList_append, List.append_assoc,
      List.append_assoc, List.append_assoc]
    rfl

theorem renderLines_of_error (pretty : Bool) {front : List Value} {v : Value} {e : JsonError}
    (hfront : ∀ u ∈ front, ∃ j, u.toJson = .ok j) (hv : v.toJson = .error e) (back : List Value)
    (out : String) : renderLines pretty (front ++ v :: back) out = .error (.render e) := by
  induction front generalizing out with
  | nil => rw [List.nil_append, renderLines, hv]
  | cons u front ih =>
    obtain ⟨⟨j, hj⟩, hfront⟩ := List.forall_mem_cons.1 hfront
    rw [List.cons_append, renderLines, hj]
    exact ih hfront _

variable {bs : Bytes} {pretty : Bool}

theorem unpack_of_error {e : DecodeError} (h : (decodeAll defaultMaxDepth bs).error = some e) :
    unpack bs pretty = .error (.decode (decodeAll defaultMaxDepth bs).values.length e) := by
  rw [unpack]
  simp only [h]

theorem unpack_of_complete (h : (decodeAll defaultMaxDepth bs).error = none) :
    unpack bs pretty = renderLines pretty (decodeAll defaultMaxDepth bs).values "" := by
  rw [unpack]
  simp only [h]

theorem unpack_of_stuck {front back : List Value} {v : Value} {e : JsonError}
    (h : (decodeAll defaultMaxDepth bs).error = none)
    (hvalues : (decodeAll defaultMaxDepth bs).values = front ++ v :: back)
    (hfront : ∀ u ∈ front, ∃ j, u.toJson = .ok j) (hv : v.toJson = .error e) :
    unpack bs pretty = .error (.render e) := by
  rw [unpack_of_complete h, hvalues, renderLines_of_error pretty hfront hv]

/-- What is unpacked are the documents of all values, each with a line feed. -/
theorem documents_of_unpack {text : String} (h : unpack bs pretty = .ok text) :
    ∃ js, List.Forall₂ (fun v j => v.toJson = .ok j) (decodeAll defaultMaxDepth bs).values js ∧
      text.toList = (js.map fun j => (TextFormats.write pretty j).toList).flatMap fun line =>
        line ++ ['\n'] := by
  cases herror : (decodeAll defaultMaxDepth bs).error with
  | some e => cases (unpack_of_error herror).symm.trans h
  | none =>
    rcases rendered_or_stuck (decodeAll defaultMaxDepth bs).values with
      ⟨js, hjs⟩ | ⟨front, v, back, e, hvalues, hfront, hv⟩
    · obtain ⟨text', htext, hlist⟩ := renderLines_of_documents pretty hjs ""
      rw [unpack_of_complete herror, htext] at h
      cases h
      exact ⟨js, hjs, by rw [hlist, List.flatMap_map]; rfl⟩
    · cases (unpack_of_stuck herror hvalues hfront hv).symm.trans h

theorem unpack_eq_error_iff :
    (∃ e, unpack bs pretty = .error e) ↔ (decodeAll defaultMaxDepth bs).error ≠ none ∨
      ∃ v ∈ (decodeAll defaultMaxDepth bs).values, ∃ e, v.toJson = .error e := by
  constructor
  · rintro ⟨e, h⟩
    refine or_iff_not_imp_left.2 fun hnone => ?_
    replace hnone := not_not.1 hnone
    rcases rendered_or_stuck (decodeAll defaultMaxDepth bs).values with
      ⟨js, hjs⟩ | ⟨front, v, back, e', hvalues, -, hv⟩
    · obtain ⟨text, htext, -⟩ := renderLines_of_documents pretty hjs ""
      rw [unpack_of_complete hnone, htext] at h
      cases h
    · exact ⟨v, by rw [hvalues]; simp, e', hv⟩
  · intro h
    cases hunpack : unpack bs pretty with
    | error e => exact ⟨e, rfl⟩
    | ok text =>
      obtain ⟨js, hjs, -⟩ := documents_of_unpack hunpack
      rcases h with hsome | ⟨v, hv, e, he⟩
      · obtain ⟨e, he⟩ := Option.ne_none_iff_exists'.1 hsome
        cases (unpack_of_error he).symm.trans hunpack
      · obtain ⟨j, -, hj⟩ := Value.exists_mem_of_forall₂ hjs hv
        cases hj.symm.trans he

/-- Unpacking fails if the bytes do not decode to their end, whatever the values before are, and
otherwise if a value has no document, the first one of these. Else there is a line for every value,
the compact text of its document, and nothing after the last line feed, if documents are written
without control characters. -/
theorem unpack_lines (bs : Bytes) :
    let all := decodeAll defaultMaxDepth bs
    ((∃ e, unpack bs false = .error e) ↔
      all.error ≠ none ∨ ∃ v ∈ all.values, ∃ e, v.toJson = .error e) ∧
    (∀ e, all.error = some e → unpack bs false = .error (.decode all.values.length e)) ∧
    (all.error = none → ∀ front v back e, all.values = front ++ v :: back →
      (∀ u ∈ front, ∃ j, u.toJson = .ok j) → v.toJson = .error e →
        unpack bs false = .error (.render e)) ∧
    (TextFormats.PlainWriter → ∀ text, unpack bs false = .ok text →
      text.toList.count '\n' = all.values.length ∧
      (text ≠ "" → text.toList.getLast? = some '\n') ∧
      ∃ js, List.Forall₂ (fun v j => v.toJson = .ok j) all.values js ∧
        text.toList.splitOn '\n' = js.map (fun j => (TextFormats.write false j).toList) ++ [[]]) := by
  refine ⟨unpack_eq_error_iff, fun e => unpack_of_error,
    fun hnone front v back e => unpack_of_stuck hnone, fun hwriter text h => ?_⟩
  obtain ⟨js, hjs, hlist⟩ := documents_of_unpack h
  have hplain : ∀ line ∈ js.map fun j => (TextFormats.write false j).toList, Json.Plain line :=
    List.forall_mem_map.2 fun j _ => hwriter.compact j
  refine ⟨?_, fun htext => ?_, js, hjs, ?_⟩
  · rw [hlist, Json.count_lines hplain, List.length_map, hjs.length_eq]
  · rw [hlist]
    refine Json.getLast?_lines fun hnil => htext ?_
    rw [← String.toList_eq_nil_iff, hlist, hnil, List.flatMap_nil]
  · rw [hlist, Json.splitOn_lines hplain]

end

/-- The number 1 and an object with an array as its key, in which there is a line feed. -/
def framed : Bytes := [0x01, 0x81, 0x91, 0xa1, 0x0a, 0xa1, 0x0a]

/-- What they are rendered as: the line feeds are escaped, that in the key twice. -/
def framedText : String := "1\n\x7b\"[\\\"\\\\n\\\"]\":\"\\n\"\x7d\n"

theorem unpack_lines_framed :
    unpack framed false = .ok framedText ∧ framedText.toList.count '\n' = 2 ∧
      framedText.toList.getLast? = some '\n' ∧
      ∃ js, List.Forall₂ (fun v j => v.toJson = .ok j) (decodeAll defaultMaxDepth framed).values js ∧
        framedText.toList.splitOn '\n' = js.map (fun j => (j.text false).toList) ++ [[]] := by
  have hunpack : unpack framed false = .ok framedText := rfl
  obtain ⟨hcount, hlast, hlines⟩ :=
    (unpack_lines framed).2.2.2 TextFormats.plainWriter_standard framedText hunpack
  exact ⟨hunpack, hcount, hlast (by decide), hlines⟩

end MessagePack
