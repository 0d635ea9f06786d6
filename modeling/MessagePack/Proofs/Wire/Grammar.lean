import MessagePack.Proofs.SortedEntries
import MessagePack.Value.Order

/-!
# The grammar of encodings

Which byte strings encode which values, form by form. Nothing has to be in its shortest form:
numbers and lengths may be wider than they need be, and the pairs of an object come in any order,
also with equal keys, of which the last one counts.

* `Sized.Spells sort n bs`: the ways to write the length at the beginning of a value.
* `Encodes depth v bs deepest`: the encodings of all values, with the depths of a derivation.
-/

namespace MessagePack

/-! ## Lengths -/

/-- The sorts of values whose encoding begins with a length. -/
inductive Sized where
  | string
  | binary
  | extension
  | array
  | object
deriving DecidableEq

namespace Sized

/-- The bytes from `first` on for the lengths below `limit`. -/
def countFrom (first : UInt8) (limit : Nat) : List (UInt8 × Nat) :=
  (List.range limit).map fun n => (first + UInt8.ofNat n, n)

/-- The bytes that stand for one length each. -/
def fixed : Sized → List (UInt8 × Nat)
  | string => countFrom 0xa0 32
  | binary => []
  | extension => [(0xd4, 1), (0xd5, 2), (0xd6, 4), (0xd7, 8), (0xd8, 16)]
  | array => countFrom 0x90 16
  | object => countFrom 0x80 16

/-- The bytes after which the length comes as a big-endian number, with the width of that number. -/
def marked : Sized → List (UInt8 × Nat)
  | string => [(0xd9, 1), (0xda, 2), (0xdb, 4)]
  | binary => [(0xc4, 1), (0xc5, 2), (0xc6, 4)]
  | extension => [(0xc7, 1), (0xc8, 2), (0xc9, 4)]
  | array => [(0xdc, 2), (0xdd, 4)]
  | object => [(0xde, 2), (0xdf, 4)]

/-- The bytes spell the length at the beginning of a value of the sort. -/
inductive Spells (sort : Sized) (n : Nat) : Bytes → Prop
  | fixed {b : UInt8} (h : (b, n) ∈ sort.fixed) : Spells sort n [b]
  | marked {b : UInt8} {width : Nat} (h : (b, width) ∈ sort.marked) (hn : n < 256 ^ width) :
      Spells sort n (b :: bigEndian width n)

end Sized

/-! ## Values without parts -/

/-- The byte that announces a number, the width of the number and its bits. -/
def Value.numberForm? : Value → Option (UInt8 × Nat × Nat)
  | float32 x => some (0xca, 4, x.bits.toNat)
  | float64 x => some (0xcb, 8, x.bits.toNat)
  | uint8 n => some (0xcc, 1, n.toNat)
  | uint16 n => some (0xcd, 2, n.toNat)
  | uint32 n => some (0xce, 4, n.toNat)
  | uint64 n => some (0xcf, 8, n.toNat)
  | int8 i => some (0xd0, 1, i.toUInt8.toNat)
  | int16 i => some (0xd1, 2, i.toUInt16.toNat)
  | int32 i => some (0xd2, 4, i.toUInt32.toNat)
  | int64 i => some (0xd3, 8, i.toUInt64.toNat)
  | _ => none

/-- The bytes encode a value without parts. -/
inductive Atom : Value → Bytes → Prop
  | nil : Atom .nil [0xc0]
  | no : Atom (.bool false) [0xc2]
  | yes : Atom (.bool true) [0xc3]
  /-- An integer from 0 to 127 stands for itself. -/
  | positive {b : UInt8} (h : b < 0x80) : Atom (.uint8 b) [b]
  /-- An integer from -32 to -1, in two's complement. -/
  | negative {b : UInt8} (h : 0xe0 ≤ b) : Atom (.int8 b.toInt8) [b]
  | number {v : Value} {b : UInt8} {width bits : Nat} (h : v.numberForm? = some (b, width, bits)) :
      Atom v (b :: bigEndian width bits)
  | string {bytes header : Bytes} (h : Sized.string.Spells bytes.length header) :
      Atom (.string bytes) (header ++ bytes)
  | binary {bytes header : Bytes} (h : Sized.binary.Spells bytes.length header) :
      Atom (.binary bytes) (header ++ bytes)
  /-- The type byte comes between the length and the payload. -/
  | extension {type : Int8} {data header : Bytes}
      (h : Sized.extension.Spells data.length header) :
      Atom (.extension type data) (header ++ type.toUInt8 :: data)

/-! ## All values -/

/-- A value in an array or object as it is derived: its bytes, and the depth of its deepest node. -/
structure Part where
  value : Value
  bytes : Bytes
  deepest : Nat

namespace Part

/-- The bytes of parts, one after the other. -/
def bytesOf (parts : List Part) : Bytes := parts.flatMap bytes

/-- The depth of the deepest node at `depth` or in the parts. -/
def deepestOf (depth : Nat) (parts : List Part) : Nat := (parts.map deepest).foldr max depth

/-- The parts of an object: each key before its value. -/
def ofPairs (pairs : List (Part × Part)) : List Part := pairs.flatMap fun pair => [pair.1, pair.2]

/-- The keys and values that the parts of an object stand for. -/
def entriesOf (pairs : List (Part × Part)) : List (Value × Value) :=
  pairs.map fun pair => (pair.1.value, pair.2.value)

end Part

/-- The bytes encode the value by a derivation whose root is at `depth` and whose deepest node, of
those for pairs that do not count too, is at `deepest`. -/
inductive Encodes : (depth : Nat) → Value → Bytes → (deepest : Nat) → Prop
  | atom {depth : Nat} {v : Value} {bs : Bytes} (h : Atom v bs) : Encodes depth v bs depth
  | array {depth : Nat} {header : Bytes} {items : List Part}
      (hheader : Sized.array.Spells items.length header)
      (hitems : ∀ part ∈ items, Encodes (depth + 1) part.value part.bytes part.deepest) :
      Encodes depth (.array (items.map Part.value)) (header ++ Part.bytesOf items)
        (Part.deepestOf depth items)
  /-- Of pairs with equal keys the last one counts, and the object is in key order. -/
  | object {depth : Nat} {header : Bytes} {pairs : List (Part × Part)}
      {entries : List (Value × Value)}
      (hheader : Sized.object.Spells pairs.length header)
      (hparts : ∀ part ∈ Part.ofPairs pairs,
        Encodes (depth + 1) part.value part.bytes part.deepest)
      (hentries : SortedEntries.LastWins Value.cmp (Part.entriesOf pairs) entries) :
      Encodes depth (.object entries)
        (header ++ Part.bytesOf (Part.ofPairs pairs)) (Part.deepestOf depth (Part.ofPairs pairs))

/-! ## Depths of parts -/

namespace Part

theorem forall_mem_ofPairs {P : Part → Prop} {pairs : List (Part × Part)} :
    (∀ part ∈ ofPairs pairs, P part) ↔ ∀ pair ∈ pairs, P pair.1 ∧ P pair.2 := by
  simp only [ofPairs, List.forall_mem_flatMap, List.forall_mem_cons, List.not_mem_nil,
    false_implies, implies_true, and_true]

theorem le_deepestOf (depth : Nat) (parts : List Part) : depth ≤ deepestOf depth parts := by
  induction parts with
  | nil => exact Nat.le_refl depth
  | cons part parts ih => exact Nat.le_trans ih (Nat.le_max_right _ _)

theorem deepest_le_deepestOf {depth : Nat} {part : Part} {parts : List Part} (h : part ∈ parts) :
    part.deepest ≤ deepestOf depth parts := by
  induction parts with
  | nil => cases h
  | cons part' parts ih =>
    rcases List.mem_cons.1 h with rfl | h
    · exact Nat.le_max_left _ _
    · exact Nat.le_trans (ih h) (Nat.le_max_right _ _)

theorem deepestOf_lt {depth bound : Nat} {parts : List Part} (hdepth : depth < bound)
    (h : ∀ part ∈ parts, part.deepest < bound) : deepestOf depth parts < bound := by
  induction parts with
  | nil => exact hdepth
  | cons part parts ih =>
    obtain ⟨hpart, hparts⟩ := List.forall_mem_cons.1 h
    exact Nat.max_lt.2 ⟨hpart, ih hparts⟩

end Part

end MessagePack
