import MessagePack.Proofs.Value.Narrow

/-!
# What can be seen of a value

Accessors answer every question, also at the end of a path of look-ups of which some find nothing.
None of them but the kind itself tells how wide an integer is: conversions start from the integer,
and keys are looked up by value.

* `Value.Observation`, `Value.observe`: the answers of all accessors that do not ask for a width.
* `Value.observe_of_same`: such values cannot be told apart.
-/

namespace MessagePack.Value

/-! ## Paths -/

/-- A look-up: of an item, of the value under a text, or of the value under any key. -/
inductive Step where
  | item (index : Nat)
  | field (name : String)
  | get (key : Value)

/-- What a look-up finds, nil if nothing. -/
def Step.apply (v : Value) : Step → Value
  | item index => v.item index
  | field name => v.field name
  | get key => v.get key

/-- What is found at the end of a path. -/
def follow (v : Value) (path : List Step) : Value := path.foldl Step.apply v

/-- Values without parts have no items and no entries. -/
theorem parts_of_isFlat {v : Value} (h : v.isFlat) : v.items = [] ∧ v.entries = [] := by
  cases v <;> first | exact ⟨rfl, rfl⟩ | cases h

theorem Same.isFlat {v w : Value} (h : v.Same w) (hv : v.isFlat) : w.isFlat := by
  obtain ⟨hint, heq⟩ := (same_of_isFlat hv).1 h
  cases hi : v.int? with
  | none => exact heq hi ▸ hv
  | some i => exact isFlat_of_int? (hint.symm.trans hi)

theorem Same.parts {v w : Value} (h : v.Same w) : List.Forall₂ Same v.items w.items ∧
    List.Forall₂ (fun e f => e.1.Same f.1 ∧ e.2.Same f.2) v.entries w.entries := by
  by_cases hv : v.isFlat
  · obtain ⟨hitems, hentries⟩ := parts_of_isFlat hv
    obtain ⟨hitems', hentries'⟩ := parts_of_isFlat (h.isFlat hv)
    rw [hitems, hentries, hitems', hentries']
    exact ⟨.nil, .nil⟩
  · have hw : ¬w.isFlat := fun hw => hv (h.symm.isFlat hw)
    cases v with
    | array vs =>
      cases w with
      | array ws => exact ⟨sameItems_iff.1 h, .nil⟩
      | object fs => cases h.2 rfl
      | _ => exact absurd rfl hw
    | object es =>
      cases w with
      | array ws => cases h.2 rfl
      | object fs => exact ⟨.nil, sameEntries_iff.1 h⟩
      | _ => exact absurd rfl hw
    | _ => exact absurd rfl hv

theorem same_getD {vs ws : List Value} (h : List.Forall₂ Same vs ws) (index : Nat) :
    (vs[index]?.getD nil).Same (ws[index]?.getD nil) := by
  induction h generalizing index with
  | nil => exact .refl nil
  | cons hv _ ih =>
    cases index with
    | zero => exact hv
    | succ index => exact ih index

/-- Keys that differ in the widths of integers only are met by the same look-ups. -/
theorem same_find? {es fs : List (Value × Value)}
    (h : List.Forall₂ (fun e f => e.1.Same f.1 ∧ e.2.Same f.2) es fs) (key : Value) :
    ((SortedEntries.find? cmp key es).getD nil).Same
      ((SortedEntries.find? cmp key fs).getD nil) := by
  induction h with
  | nil => exact .refl nil
  | @cons e f es fs he _ ih =>
    have hcmp : f.1.cmp key = e.1.cmp key :=
      Std.TransCmp.congr_left (beq_iff.1 (beq_of_same he.1.symm))
    simp only [SortedEntries.find?, List.find?_cons, hcmp]
    split
    · exact he.2
    · exact ih

theorem Same.get {v w : Value} (h : v.Same w) (key : Value) : (v.get key).Same (w.get key) :=
  same_find? h.parts.2 key

theorem Same.apply {v w : Value} (h : v.Same w) (step : Step) :
    (step.apply v).Same (step.apply w) := by
  cases step with
  | item index => exact same_getD h.parts.1 index
  | field name => exact h.get (text name)
  | get key => exact h.get key

/-- Paths lead to values that differ in the widths of integers only. -/
theorem Same.follow {v w : Value} (h : v.Same w) (path : List Step) :
    (v.follow path).Same (w.follow path) := by
  induction path generalizing v w with
  | nil => exact h
  | cons step path ih => exact ih (h.apply step)

/-! ## Observations -/

/-- The answers of the accessors that do not ask how wide an integer is: the value as a number of
every type, its contents and its length, and what it is. An integer of no stated type is an `Int32`,
a number of none a `Binary64`. -/
structure Observation where
  asInt8 : Int8
  asInt16 : Int16
  asInt32 : Int32
  asInt64 : Int64
  asUInt8 : UInt8
  asUInt16 : UInt16
  asUInt32 : UInt32
  asUInt64 : UInt64
  asBinary32 : Binary32
  asBinary64 : Binary64
  bool : Bool
  stringBytes : Bytes
  text : String
  binaryBytes : Bytes
  extension : Int8 × Bytes
  length : Nat
  isNil : Bool
  isBool : Bool
  isNumber : Bool
  isInt : Bool
  isFloat32 : Bool
  isFloat64 : Bool
  isString : Bool
  isBinary : Bool
  isArray : Bool
  isObject : Bool
  isExtension : Bool

/-- What the accessors answer about a value. -/
def observe (v : Value) : Observation where
  asInt8 := v.toInt8
  asInt16 := v.toInt16
  asInt32 := v.toInt32
  asInt64 := v.toInt64
  asUInt8 := v.toUInt8
  asUInt16 := v.toUInt16
  asUInt32 := v.toUInt32
  asUInt64 := v.toUInt64
  asBinary32 := v.toBinary32
  asBinary64 := v.toBinary64
  bool := v.boolValue
  stringBytes := v.stringBytes
  text := v.textValue
  binaryBytes := v.binaryBytes
  extension := v.extensionParts
  length := v.length
  isNil := v.isNil
  isBool := v.isBool
  isNumber := v.isNumber
  isInt := v.isInt
  isFloat32 := v.kind == .float32
  isFloat64 := v.kind == .float64
  isString := v.isString
  isBinary := v.isBinary
  isArray := v.isArray
  isObject := v.isObject
  isExtension := v.isExtension

/-- What is seen of an integer: its conversions, and that it is one. All else is as of nil. -/
def Observation.ofInt (i : Int) : Observation :=
  { nil.observe with
    asInt8 := .ofInt i
    asInt16 := .ofInt i
    asInt32 := .ofInt i
    asInt64 := .ofInt i
    asUInt8 := .ofBitVec (.ofInt 8 i)
    asUInt16 := .ofBitVec (.ofInt 16 i)
    asUInt32 := .ofBitVec (.ofInt 32 i)
    asUInt64 := .ofBitVec (.ofInt 64 i)
    asBinary32 := .ofInt i
    asBinary64 := .ofInt i
    isNil := false
    isNumber := true
    isInt := true }

theorem isNumber_of_int? {v : Value} {i : Int} (h : v.int? = some i) : v.isNumber ∧ v.isInt := by
  unfold isNumber isInt
  cases v <;> first | (simp only [kind]; decide) | cases h

/-- An integer of whatever width is seen as the integer that it holds. -/
theorem observe_of_int? {v : Value} {i : Int} (h : v.int? = some i) :
    v.observe = .ofInt i := by
  obtain ⟨hnumber, hint⟩ := isNumber_of_int? h
  rw [observe, hnumber, hint]
  cases v <;> simp only [int?, Option.some.injEq, reduceCtorEq] at h <;> subst h <;> rfl

/-- Values that differ in the widths of integers only cannot be told apart. -/
theorem observe_of_same {v w : Value} (h : v.Same w) : v.observe = w.observe := by
  refine Same.induction ?int ?flat ?array ?object h
  case int => exact fun v w i hv hw => by rw [observe_of_int? hv, observe_of_int? hw]
  case flat => exact fun v _ => rfl
  case array =>
    intro vs ws h
    have hlength : (array vs).observe = { (array []).observe with length := vs.length } := rfl
    rw [hlength, h.length_eq]
    rfl
  case object =>
    intro es fs h
    have hlength : (object es).observe = { (object []).observe with length := es.length } := rfl
    rw [hlength, h.length_eq]
    rfl

end MessagePack.Value
