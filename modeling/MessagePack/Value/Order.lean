import MessagePack.SortedEntries
import MessagePack.Value.Basic

/-!
# The order of values

A total order on all values. Values of different sorts go by `Kind.rank`; numbers of every width
compare by exact value, with "not a number" equal to itself and above every other number; strings,
binaries and extension payloads compare byte by byte, and arrays and objects element by element,
a proper beginning coming first.

Objects are built in this order from pairs (`Value.ofPairs`), of which a later one replaces an
earlier one with an equal key, key included. `ToValue` gives the value that stands for a piece of
native data: byte arrays become binaries, text becomes a string, and absence becomes nil.
-/

namespace MessagePack.Value

/-! ## Comparisons -/

/-- The order of values of one rank of which not both are arrays and not both are objects. -/
def cmpFlat : Value → Value → Ordering
  | bool a, bool b => compare a b
  | string a, string b => compare a b
  | binary a, binary b => compare a b
  | extension type a, extension type' b => (compare type type').then (compare a b)
  | a, b =>
    match a.number?, b.number? with
    | some x, some y => x.cmp y
    | _, _ => .eq

mutual

/-- The order of values. -/
def cmp (a b : Value) : Ordering :=
  match compare a.kind.rank b.kind.rank with
  | .eq =>
    match a, b with
    | array xs, array ys => cmpItems xs ys
    | object es, object es' => cmpEntries es es'
    | a, b => cmpFlat a b
  | o => o

/-- The lexicographic order of lists of values. -/
def cmpItems : List Value → List Value → Ordering
  | [], [] => .eq
  | [], _ :: _ => .lt
  | _ :: _, [] => .gt
  | x :: xs, y :: ys =>
    match x.cmp y with
    | .eq => cmpItems xs ys
    | o => o

/-- The lexicographic order of entries, each a key followed by its value. -/
def cmpEntries : List (Value × Value) → List (Value × Value) → Ordering
  | [], [] => .eq
  | [], _ :: _ => .lt
  | _ :: _, [] => .gt
  | (k, v) :: es, (k', v') :: es' =>
    match k.cmp k' with
    | .eq =>
      match v.cmp v' with
      | .eq => cmpEntries es es'
      | o => o
    | o => o

end

instance : Ord Value := ⟨cmp⟩

/-- Values are equal when neither comes before the other: numbers of different widths can be. -/
instance : BEq Value := ⟨fun a b => a.cmp b == .eq⟩

/-- Sorts values; equal ones keep their places relative to each other. -/
def sort (vs : List Value) : List Value := vs.mergeSort fun a b => (a.cmp b).isLE

end MessagePack.Value

namespace MessagePack

/-! ## Building values -/

/-- The UTF-8 bytes of a text. -/
def utf8 (text : String) : Bytes := text.toList.flatMap String.utf8EncodeChar

namespace Value

/-- A string value holding text. -/
def text (s : String) : Value := .string (utf8 s)

/-- The object that pairs build from left to right. -/
def ofPairs (pairs : List (Value × Value)) : Value := .object (SortedEntries.ofPairs cmp pairs)

end Value

/-- Native data that a value stands for. -/
class ToValue (α : Type) where
  /-- The value that stands for the data. -/
  toValue : α → Value

export ToValue (toValue)

instance : ToValue Value := ⟨id⟩
instance : ToValue Unit := ⟨fun _ => .nil⟩
instance : ToValue Bool := ⟨.bool⟩
instance : ToValue Binary32 := ⟨.float32⟩
instance : ToValue Binary64 := ⟨.float64⟩
instance : ToValue Int8 := ⟨.int8⟩
instance : ToValue Int16 := ⟨.int16⟩
instance : ToValue Int32 := ⟨.int32⟩
instance : ToValue Int64 := ⟨.int64⟩
instance : ToValue UInt8 := ⟨.uint8⟩
instance : ToValue UInt16 := ⟨.uint16⟩
instance : ToValue UInt32 := ⟨.uint32⟩
instance : ToValue UInt64 := ⟨.uint64⟩
instance : ToValue String := ⟨.text⟩
instance : ToValue ByteArray := ⟨fun bs => .binary bs.data.toList⟩
instance : ToValue (Int8 × ByteArray) := ⟨fun e => .extension e.1 e.2.data.toList⟩

/-- What is absent is nil. -/
instance {α : Type} [ToValue α] : ToValue (Option α) where
  toValue
    | none => .nil
    | some a => toValue a

instance {α : Type} [ToValue α] : ToValue (List α) := ⟨fun as => .array (as.map toValue)⟩

/-- An association list becomes the object that it builds. -/
instance (priority := high) {κ α : Type} [ToValue κ] [ToValue α] : ToValue (List (κ × α)) where
  toValue pairs := .ofPairs (pairs.map fun pair => (toValue pair.1, toValue pair.2))

end MessagePack
