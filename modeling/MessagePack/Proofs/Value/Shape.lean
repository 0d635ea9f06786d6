import MessagePack.Proofs.SortedEntries
import MessagePack.Proofs.Value.Order
import MessagePack.Value.Shape

/-!
# Checking shapes

A shape asks for fields and their kinds. The check looks fields up, and a look-up that finds nothing
answers nil. So an absent field is never taken for one of another kind, but it is taken for one that
is nil, and an object without the field has a shape that asks for nil there.

* `Value.Promised`: the answer if an absent field has no kind at all.
* `Value.checkShape_answers`: what the check answers, and when that is the promised answer.
-/

namespace MessagePack.Value

variable {v : Value} {name : String} {kind : Kind} {shape before after : List (String × Kind)}

/-! ## Fields -/

/-- There is an entry under the text, and its value is of this kind. -/
def HasField (v : Value) (name : String) (kind : Kind) : Prop :=
  ∃ value, (text name, value) ∈ v.entries ∧ value.kind = kind

/-- There is no entry under the text. -/
def LacksField (v : Value) (name : String) : Prop := ∀ value, (text name, value) ∉ v.entries

/-- The kind that the check finds under the text: that of the entry, or nil if there is none. -/
def Finds (v : Value) (name : String) (kind : Kind) : Prop :=
  v.HasField name kind ∨ v.LacksField name ∧ kind = .nil

theorem LacksField.not_hasField (h : v.LacksField name) (kind : Kind) : ¬v.HasField name kind :=
  fun ⟨value, hvalue, _⟩ => h value hvalue

/-- Only a text equals it as a key: numbers, binaries and strings of other bytes differ. -/
theorem cmp_text_right_eq_iff {key : Value} : key.cmp (text name) = .eq ↔ key = text name := by
  constructor
  · intro heq
    by_cases hrank : key.kind.rank = Kind.string.rank
    · obtain ⟨bytes, rfl⟩ : ∃ bytes, key = string bytes := by
        cases key <;> first | exact ⟨_, rfl⟩ | cases hrank
      rw [text, cmp_string] at heq
      rw [Std.LawfulEqCmp.compare_eq_iff_eq.1 heq, text]
    · have hne : compare key.kind.rank (text name).kind.rank ≠ .eq :=
        fun h => hrank (Std.LawfulEqCmp.compare_eq_iff_eq.1 h)
      exact absurd ((cmp_of_rank hne).symm.trans heq) hne
  · rintro rfl
    exact Std.ReflCmp.compare_self

section

variable (h : SortedEntries.Ascending cmp v.entries)
include h

theorem find?_text_eq_some_iff {value : Value} :
    SortedEntries.find? cmp (text name) v.entries = some value ↔
      (text name, value) ∈ v.entries := by
  rw [SortedEntries.find?, Option.map_eq_some_iff]
  constructor
  · rintro ⟨⟨key, value⟩, hfind, rfl⟩
    obtain ⟨hmem, heq⟩ := h.distinct.find?_eq_some_iff.1 hfind
    obtain rfl : key = text name := cmp_text_right_eq_iff.1 heq
    exact hmem
  · intro hmem
    exact ⟨(text name, value),
      h.distinct.find?_eq_some_iff.2 ⟨hmem, cmp_text_right_eq_iff.2 rfl⟩, rfl⟩

theorem kind_field_eq_iff : (v.field name).kind = kind ↔ v.Finds name kind := by
  rw [field, get]
  cases hfind : SortedEntries.find? cmp (text name) v.entries with
  | some found =>
    have hmem : (text name, found) ∈ v.entries := (find?_text_eq_some_iff h).1 hfind
    constructor
    · intro hkind
      exact .inl ⟨found, hmem, hkind⟩
    · rintro (⟨value, hvalue, hkind⟩ | ⟨hlacks, -⟩)
      · cases hfind.symm.trans ((find?_text_eq_some_iff h).2 hvalue)
        exact hkind
      · exact absurd hmem (hlacks found)
  | none =>
    have hlacks : v.LacksField name := fun value hmem =>
      nomatch hfind.symm.trans ((find?_text_eq_some_iff h).2 hmem)
    constructor
    · rintro rfl
      exact .inr ⟨hlacks, rfl⟩
    · rintro (hhas | ⟨-, rfl⟩)
      · exact absurd hhas (hlacks.not_hasField kind)
      · rfl

end

/-! ## The first field that does not fit -/

/-- The requirements are all met, or one is the first that is not. -/
theorem exists_first_unmet (Met : String × Kind → Prop) (shape : List (String × Kind)) :
    (∀ wanted ∈ shape, Met wanted) ∨ ∃ before wanted after, shape = before ++ wanted :: after ∧
      (∀ earlier ∈ before, Met earlier) ∧ ¬Met wanted := by
  induction shape with
  | nil => exact .inl (List.forall_mem_nil _)
  | cons wanted shape ih =>
    by_cases hwanted : Met wanted
    · rcases ih with hall | ⟨before, unmet, after, rfl, hbefore, hunmet⟩
      · exact .inl (List.forall_mem_cons.2 ⟨hwanted, hall⟩)
      · exact .inr ⟨wanted :: before, unmet, after, rfl,
          List.forall_mem_cons.2 ⟨hwanted, hbefore⟩, hunmet⟩
    · exact .inr ⟨[], wanted, shape, rfl, List.forall_mem_nil _, hwanted⟩

theorem mem_of_split {wanted : String × Kind} (h : shape = before ++ wanted :: after) :
    wanted ∈ shape := by
  rw [h]
  exact List.mem_append_cons_self

/-- Only one requirement is the first that is not met. -/
theorem first_unmet_unique (Met : String × Kind → Prop) {before' after' : List (String × Kind)}
    {wanted wanted' : String × Kind} (h : before ++ wanted :: after = before' ++ wanted' :: after')
    (hbefore : ∀ earlier ∈ before, Met earlier) (hwanted : ¬Met wanted)
    (hbefore' : ∀ earlier ∈ before', Met earlier) (hwanted' : ¬Met wanted') :
    wanted = wanted' := by
  induction before generalizing before' with
  | nil =>
    cases before' with
    | nil => exact (List.cons.inj h).1
    | cons first before' =>
      obtain rfl : wanted = first := (List.cons.inj h).1
      exact absurd (hbefore' _ List.mem_cons_self) hwanted
  | cons first before ih =>
    obtain ⟨hfirst, hbefore⟩ := List.forall_mem_cons.1 hbefore
    cases before' with
    | nil =>
      obtain rfl : first = wanted' := (List.cons.inj h).1
      exact absurd hfirst hwanted'
    | cons first' before' =>
      exact ih (List.cons.inj h).2 hbefore (List.forall_mem_cons.1 hbefore').2

theorem checkFields_append (hbefore : ∀ earlier ∈ before, (v.field earlier.1).kind = earlier.2) :
    v.checkFields (before ++ shape) = v.checkFields shape := by
  induction before with
  | nil => rfl
  | cons earlier before ih =>
    obtain ⟨hearlier, hbefore⟩ := List.forall_mem_cons.1 hbefore
    rw [List.cons_append, checkFields, if_pos hearlier, ih hbefore]

theorem checkFields_eq_ok_iff :
    v.checkFields shape = .ok () ↔ ∀ wanted ∈ shape, (v.field wanted.1).kind = wanted.2 := by
  induction shape with
  | nil => simp [checkFields]
  | cons wanted shape ih =>
    rw [checkFields, List.forall_mem_cons, ← ih]
    split <;> simp [*]

theorem checkFields_eq_error_iff {e : ShapeError} :
    v.checkFields shape = .error e ↔ ∃ before wanted after, shape = before ++ wanted :: after ∧
      (∀ earlier ∈ before, (v.field earlier.1).kind = earlier.2) ∧
      (v.field wanted.1).kind ≠ wanted.2 ∧
      e = .badKind wanted.1 wanted.2 (v.field wanted.1).kind := by
  have hfirst : ∀ {before wanted after}, shape = before ++ wanted :: after →
      (∀ earlier ∈ before, (v.field earlier.1).kind = earlier.2) →
      (v.field wanted.1).kind ≠ wanted.2 →
      v.checkFields shape = .error (.badKind wanted.1 wanted.2 (v.field wanted.1).kind) := by
    rintro before wanted after rfl hbefore hwanted
    rw [checkFields_append hbefore, checkFields, if_neg hwanted]
  constructor
  · intro he
    rcases exists_first_unmet (fun wanted => (v.field wanted.1).kind = wanted.2) shape with
      hall | ⟨before, wanted, after, hshape, hbefore, hwanted⟩
    · cases (checkFields_eq_ok_iff.2 hall).symm.trans he
    · cases (hfirst hshape hbefore hwanted).symm.trans he
      exact ⟨before, wanted, after, hshape, hbefore, hwanted, rfl⟩
  · rintro ⟨before, wanted, after, hshape, hbefore, hwanted, rfl⟩
    exact hfirst hshape hbefore hwanted

/-! ## Answers -/

/-- The answer if an absent field has no kind at all: the first requirement that no field of the
object meets is reported, with nil as the kind of an absent field. -/
inductive Promised (v : Value) (shape : List (String × Kind)) : Except ShapeError Unit → Prop
  | notAnObject (hobject : v.isObject = false) : Promised v shape (.error .notAnObject)
  | fits (hobject : v.isObject) (hall : ∀ wanted ∈ shape, v.HasField wanted.1 wanted.2) :
    Promised v shape (.ok ())
  | offends {before after : List (String × Kind)} {name : String} {expected found : Kind}
    (hobject : v.isObject) (hshape : shape = before ++ (name, expected) :: after)
    (hbefore : ∀ earlier ∈ before, v.HasField earlier.1 earlier.2)
    (hunmet : ¬v.HasField name expected) (hfound : v.Finds name found) :
    Promised v shape (.error (.badKind name expected found))

theorem checkShape_eq_notAnObject_iff :
    v.checkShape shape = .error .notAnObject ↔ v.isObject = false := by
  rw [checkShape]
  split
  case isTrue hobject => simp [hobject, checkFields_eq_error_iff]
  case isFalse hobject => simpa using hobject

section

variable (h : SortedEntries.Ascending cmp v.entries)
include h

theorem checkShape_eq_ok_iff : v.checkShape shape = .ok () ↔
    v.isObject ∧ ∀ wanted ∈ shape, v.Finds wanted.1 wanted.2 := by
  rw [checkShape]
  split
  case isTrue hobject => simp [hobject, checkFields_eq_ok_iff, kind_field_eq_iff h]
  case isFalse hobject => simp [hobject]

theorem checkShape_eq_badKind_iff {expected found : Kind} :
    v.checkShape shape = .error (.badKind name expected found) ↔
      v.isObject ∧ ∃ before after, shape = before ++ (name, expected) :: after ∧
        (∀ earlier ∈ before, v.Finds earlier.1 earlier.2) ∧ v.Finds name found ∧
        found ≠ expected := by
  rw [checkShape]
  split
  case isTrue hobject =>
    rw [checkFields_eq_error_iff]
    simp only [← kind_field_eq_iff h, hobject, true_and]
    constructor
    · rintro ⟨before, ⟨_, _⟩, after, hshape, hbefore, hwanted, heq⟩
      cases heq
      exact ⟨before, after, hshape, hbefore, rfl, hwanted⟩
    · rintro ⟨before, after, hshape, hbefore, rfl, hwanted⟩
      exact ⟨before, _, after, hshape, hbefore, hwanted, rfl⟩
  case isFalse hobject => simp [hobject]

theorem exists_promised (shape : List (String × Kind)) : ∃ answer, v.Promised shape answer := by
  by_cases hobject : v.isObject
  · rcases exists_first_unmet (fun wanted => v.HasField wanted.1 wanted.2) shape with
      hall | ⟨before, ⟨name, expected⟩, after, hshape, hbefore, hunmet⟩
    · exact ⟨_, .fits hobject hall⟩
    · exact ⟨_, .offends hobject hshape hbefore hunmet ((kind_field_eq_iff h).1 rfl)⟩
  · exact ⟨_, .notAnObject (Bool.not_eq_true _ ▸ hobject)⟩

/-- There is one promised answer. -/
theorem Promised.unique {answer answer' : Except ShapeError Unit} (ha : v.Promised shape answer)
    (ha' : v.Promised shape answer') : answer = answer' := by
  cases ha with
  | notAnObject hnone =>
    cases ha' with
    | notAnObject => rfl
    | fits hobject | offends hobject =>
      exact absurd (hnone.symm.trans hobject) Bool.false_ne_true
  | fits hobject hall =>
    cases ha' with
    | notAnObject hnone => exact absurd (hnone.symm.trans hobject) Bool.false_ne_true
    | fits => rfl
    | offends _ hshape _ hunmet => exact absurd (hall _ (mem_of_split hshape)) hunmet
  | offends hobject hshape hbefore hunmet hfound =>
    cases ha' with
    | notAnObject hnone => exact absurd (hnone.symm.trans hobject) Bool.false_ne_true
    | fits _ hall => exact absurd (hall _ (mem_of_split hshape)) hunmet
    | offends _ hshape' hbefore' hunmet' hfound' =>
      cases first_unmet_unique (fun wanted => v.HasField wanted.1 wanted.2)
        (hshape.symm.trans hshape') hbefore hunmet hbefore' hunmet'
      rw [← (kind_field_eq_iff h).2 hfound, ← (kind_field_eq_iff h).2 hfound']

/-- The answer is the promised one unless nil is asked of an absent field before any other field is
found not to fit. -/
theorem promised_checkShape_iff : v.Promised shape (v.checkShape shape) ↔
    (v.isObject → ∀ before name after, shape = before ++ (name, .nil) :: after →
      (∀ earlier ∈ before, v.HasField earlier.1 earlier.2) → ¬v.LacksField name) := by
  constructor
  · intro hpromised hobject before name after hshape hbefore hlacks
    have hwanted : v.Promised shape (.error (.badKind name .nil .nil)) :=
      .offends hobject hshape hbefore (hlacks.not_hasField .nil) (.inr ⟨hlacks, rfl⟩)
    obtain ⟨-, -, -, -, -, -, hne⟩ :=
      (checkShape_eq_badKind_iff h).1 (hpromised.unique h hwanted)
    exact hne rfl
  · intro hnil
    obtain ⟨answer, hpromised⟩ := exists_promised h shape
    suffices v.checkShape shape = answer from this ▸ hpromised
    cases hpromised with
    | notAnObject hobject => exact checkShape_eq_notAnObject_iff.2 hobject
    | fits hobject hall =>
      exact (checkShape_eq_ok_iff h).2 ⟨hobject, fun wanted hwanted => .inl (hall wanted hwanted)⟩
    | @offends before after name expected found hobject hshape hbefore hunmet hfound =>
      refine (checkShape_eq_badKind_iff h).2 ⟨hobject, before, after, hshape,
        fun earlier hearlier => .inl (hbefore earlier hearlier), hfound, ?_⟩
      rintro rfl
      rcases hfound with hhas | ⟨hlacks, rfl⟩
      · exact hunmet hhas
      · exact hnil hobject before name after hshape hbefore hlacks

/-- A value has a shape if it is an object and under each of the texts an entry of the kind is
found, where nil is also found if there is no entry. Otherwise the first text with another kind is
reported, along with what is found. This is the one promised answer unless, before any other field
is found not to fit, the shape asks for nil where the object has no entry. -/
theorem checkShape_answers (shape : List (String × Kind)) :
    (v.checkShape shape = .ok () ↔ v.isObject ∧ ∀ wanted ∈ shape, v.Finds wanted.1 wanted.2) ∧
    (v.checkShape shape = .error .notAnObject ↔ v.isObject = false) ∧
    (∀ name expected found, v.checkShape shape = .error (.badKind name expected found) ↔
      v.isObject ∧ ∃ before after, shape = before ++ (name, expected) :: after ∧
        (∀ earlier ∈ before, v.Finds earlier.1 earlier.2) ∧ v.Finds name found ∧
        found ≠ expected) ∧
    (∃! answer, v.Promised shape answer) ∧
    (v.Promised shape (v.checkShape shape) ↔
      (v.isObject → ∀ before name after, shape = before ++ (name, .nil) :: after →
        (∀ earlier ∈ before, v.HasField earlier.1 earlier.2) → ¬v.LacksField name)) := by
  obtain ⟨answer, hanswer⟩ := exists_promised h shape
  exact ⟨checkShape_eq_ok_iff h, checkShape_eq_notAnObject_iff,
    fun _ _ _ => checkShape_eq_badKind_iff h,
    ⟨answer, hanswer, fun _ hanswer' => hanswer'.unique h hanswer⟩, promised_checkShape_iff h⟩

end

/-- An object with keys of several kinds, among them a string that is not UTF-8 and a binary with
the bytes of a text. -/
def mixedKeys : Value :=
  object [(uint8 1, nil), (text "id", uint32 7), (text "note", nil), (string [0xff], bool true),
    (binary (utf8 "name"), nil)]

/-- The text that is only there as a binary counts as a field that is nil. Asked for another kind,
it is reported as promised. -/
theorem checkShape_answers_mixedKeys :
    SortedEntries.Ascending cmp mixedKeys.entries ∧
      mixedKeys.checkShape [("id", .uint32), ("note", .nil), ("id", .uint32), ("name", .nil)] =
        .ok () ∧
      mixedKeys.checkShape [("id", .uint32), ("name", .string), ("id", .int64)] =
        .error (.badKind "name" .string .nil) ∧
      mixedKeys.Promised [("id", .uint32), ("name", .string), ("id", .int64)]
        (.error (.badKind "name" .string .nil)) := by
  have h : SortedEntries.Ascending cmp mixedKeys.entries := by
    unfold SortedEntries.Ascending
    decide +kernel
  have hid : mixedKeys.Finds "id" .uint32 := .inl ⟨uint32 7, by simp [mixedKeys, entries], rfl⟩
  have hnote : mixedKeys.Finds "note" .nil := .inl ⟨nil, by simp [mixedKeys, entries], rfl⟩
  have hothers : ∀ e ∈ mixedKeys.entries, e.1.cmp (text "name") ≠ .eq := by decide +kernel
  have hname : mixedKeys.Finds "name" .nil :=
    .inr ⟨fun _ hmem => hothers _ hmem (cmp_text_right_eq_iff.2 rfl), rfl⟩
  obtain ⟨hok, -⟩ := checkShape_answers h
    [("id", .uint32), ("note", .nil), ("id", .uint32), ("name", .nil)]
  obtain ⟨-, -, hbad, -, hpromised⟩ := checkShape_answers h
    [("id", .uint32), ("name", .string), ("id", .int64)]
  have hreported : mixedKeys.checkShape [("id", .uint32), ("name", .string), ("id", .int64)] =
      .error (.badKind "name" .string .nil) :=
    (hbad _ _ _).2 ⟨rfl, [("id", .uint32)], [("id", .int64)], rfl, by simpa using hid, hname, nofun⟩
  refine ⟨h, hok.2 ⟨rfl, by simp [hid, hnote, hname]⟩, hreported, ?_⟩
  rw [← hreported]
  refine hpromised.2 fun _ before name after hshape _ _ => ?_
  have hmem := mem_of_split hshape
  simp at hmem

/-- An object without entries is answered to have a field that is nil, and not that the field is
absent. -/
theorem not_promised_absent_nil :
    (object []).checkShape [("gone", .nil)] = .ok () ∧
      (object []).Promised [("gone", .nil)] (.error (.badKind "gone" .nil .nil)) ∧
      ¬(object []).Promised [("gone", .nil)] ((object []).checkShape [("gone", .nil)]) := by
  have h : SortedEntries.Ascending cmp (object []).entries := List.Pairwise.nil
  have hlacks : (object []).LacksField "gone" := fun _ => List.not_mem_nil
  have hshape : [("gone", Kind.nil)] = [] ++ ("gone", .nil) :: [] := rfl
  refine ⟨rfl, .offends rfl hshape (List.forall_mem_nil _) (hlacks.not_hasField _)
    (.inr ⟨hlacks, rfl⟩), fun hpromised => ?_⟩
  exact (promised_checkShape_iff h).1 hpromised rfl [] "gone" [] rfl
    (List.forall_mem_nil _) hlacks

end MessagePack.Value
