import MessagePack.Json.Basic
import MessagePack.Proofs.SortedEntries

/-!
# The nodes of a document

A document is a tree like a value. Its nodes are the document itself and the nodes of its parts.

* `Json.WellFormed`: no number has two forms, and the names of every object strictly ascend.
* `Json.nesting`: how many arrays and objects are one inside the other.
-/

namespace MessagePack

/-- The forms of numbers do not overlap: integers that have a sign are below zero. Floats are
finite. -/
def JsonNumber.Canonical : JsonNumber → Prop
  | unsigned _ => True
  | negative i => i < 0
  | float x => x.isFinite

instance : DecidablePred JsonNumber.Canonical
  | .unsigned _ => inferInstanceAs (Decidable True)
  | .negative i => inferInstanceAs (Decidable (i < 0))
  | .float x => inferInstanceAs (Decidable (x.isFinite = true))

namespace Json

/-! ## Induction -/

/-- Neither an array nor an object. -/
def isFlat : Json → Bool
  | array _ | object _ => false
  | _ => true

/-- The parts of an array are its items, those of an object the documents under its names. -/
@[elab_as_elim]
theorem induction {P : Json → Prop} (flat : ∀ j, j.isFlat → P j)
    (array : ∀ js, (∀ j ∈ js, P j) → P (.array js))
    (object : ∀ ms, (∀ m ∈ ms, P m.2) → P (.object ms)) (j : Json) : P j := by
  by_cases hflat : j.isFlat
  · exact flat j hflat
  · cases j with
    | array js => exact array js fun j _ => induction flat array object j
    | object ms => exact object ms fun m _ => induction flat array object m.2
    | _ => exact absurd rfl hflat
termination_by sizeOf j
decreasing_by
  · rename_i hj _
    subst hj
    have := List.sizeOf_lt_of_mem ‹j ∈ js›
    simp
    omega
  · rename_i hj _
    subst hj
    have := List.sizeOf_lt_of_mem ‹m ∈ ms›
    have : sizeOf m = 1 + sizeOf m.1 + sizeOf m.2 := rfl
    simp
    omega

/-! ## Nodes -/

mutual

/-- The document and the nodes of its parts. -/
def nodes : Json → List Json
  | array js => array js :: nodesOfItems js
  | object ms => object ms :: nodesOfMembers ms
  | j => [j]

/-- The nodes of items. -/
def nodesOfItems : List Json → List Json
  | [] => []
  | j :: js => j.nodes ++ nodesOfItems js

/-- The nodes of members. -/
def nodesOfMembers : List (String × Json) → List Json
  | [] => []
  | (_, j) :: ms => j.nodes ++ nodesOfMembers ms

end

theorem mem_nodesOfItems {n : Json} {js : List Json} :
    n ∈ nodesOfItems js ↔ ∃ j ∈ js, n ∈ j.nodes := by
  induction js with
  | nil => simp [nodesOfItems]
  | cons j js ih => simp [nodesOfItems, ih]

theorem mem_nodesOfMembers {n : Json} {ms : List (String × Json)} :
    n ∈ nodesOfMembers ms ↔ ∃ m ∈ ms, n ∈ m.2.nodes := by
  induction ms with
  | nil => simp [nodesOfMembers]
  | cons m ms ih => simp [nodesOfMembers, ih]

/-- A property of all nodes. -/
def Everywhere (P : Json → Prop) (j : Json) : Prop := ∀ n ∈ j.nodes, P n

instance {P : Json → Prop} [DecidablePred P] (j : Json) : Decidable (j.Everywhere P) :=
  inferInstanceAs (Decidable (∀ n ∈ j.nodes, P n))

theorem everywhere_of_isFlat {P : Json → Prop} {j : Json} (h : j.isFlat) :
    j.Everywhere P ↔ P j := by
  have hnodes : j.nodes = [j] := by cases j <;> first | rfl | cases h
  rw [Everywhere, hnodes, List.forall_mem_singleton]

theorem everywhere_array {P : Json → Prop} {js : List Json} :
    (array js).Everywhere P ↔ P (array js) ∧ ∀ j ∈ js, j.Everywhere P := by
  simp only [Everywhere, nodes, List.forall_mem_cons, mem_nodesOfItems]
  refine and_congr_right fun _ => ?_
  exact ⟨fun h j hj n hn => h n ⟨j, hj, hn⟩, fun h n ⟨j, hj, hn⟩ => h j hj n hn⟩

theorem everywhere_object {P : Json → Prop} {ms : List (String × Json)} :
    (object ms).Everywhere P ↔ P (object ms) ∧ ∀ m ∈ ms, m.2.Everywhere P := by
  simp only [Everywhere, nodes, List.forall_mem_cons, mem_nodesOfMembers]
  refine and_congr_right fun _ => ?_
  exact ⟨fun h m hm n hn => h n ⟨m, hm, hn⟩, fun h n ⟨m, hm, hn⟩ => h m hm n hn⟩

/-! ## Numbers and names -/

/-- A number has one form only, the names of an object strictly ascend. -/
def IsCanonicalNode : Json → Prop
  | number n => n.Canonical
  | object ms => SortedEntries.Ascending compare ms
  | _ => True

instance : DecidablePred IsCanonicalNode
  | number n => inferInstanceAs (Decidable n.Canonical)
  | object ms => inferInstanceAs (Decidable (ms.Pairwise fun m n => compare m.1 n.1 = .lt))
  | null | bool _ | string _ | array _ => inferInstanceAs (Decidable True)

/-- No number has two forms, and the names of every object strictly ascend. -/
def WellFormed : Json → Prop := Everywhere IsCanonicalNode

instance (j : Json) : Decidable j.WellFormed := by
  unfold WellFormed
  infer_instance

/-! ## Lengths -/

/-- The lengths of a node fit in 32 bits: that of a string and those of the names of an object in
bytes, that of an array in items, that of an object in members. -/
def NodeFits : Json → Prop
  | string s => s.utf8ByteSize < 2 ^ 32
  | array js => js.length < 2 ^ 32
  | object ms => ms.length < 2 ^ 32 ∧ ∀ m ∈ ms, m.1.utf8ByteSize < 2 ^ 32
  | _ => True

instance : DecidablePred NodeFits
  | string s => inferInstanceAs (Decidable (s.utf8ByteSize < 2 ^ 32))
  | array js => inferInstanceAs (Decidable (js.length < 2 ^ 32))
  | object ms =>
    inferInstanceAs (Decidable (ms.length < 2 ^ 32 ∧ ∀ m ∈ ms, m.1.utf8ByteSize < 2 ^ 32))
  | null | bool _ | number _ => inferInstanceAs (Decidable True)

/-- Every length fits in 32 bits. -/
def Fits : Json → Prop := Everywhere NodeFits

instance (j : Json) : Decidable j.Fits := by
  unfold Fits
  infer_instance

/-! ## Nesting -/

mutual

/-- How many arrays and objects are one inside the other. -/
def nesting : Json → Nat
  | array js => nestingOfItems js + 1
  | object ms => nestingOfMembers ms + 1
  | _ => 0

/-- The deepest nesting of items. -/
def nestingOfItems : List Json → Nat
  | [] => 0
  | j :: js => max j.nesting (nestingOfItems js)

/-- The deepest nesting of members. -/
def nestingOfMembers : List (String × Json) → Nat
  | [] => 0
  | (_, j) :: ms => max j.nesting (nestingOfMembers ms)

end

theorem nesting_of_isFlat {j : Json} (h : j.isFlat) : j.nesting = 0 := by
  cases j <;> first | rfl | cases h

theorem nesting_array_le {js : List Json} {n : Nat} :
    (array js).nesting ≤ n + 1 ↔ ∀ j ∈ js, j.nesting ≤ n := by
  rw [nesting, Nat.add_le_add_iff_right]
  induction js with
  | nil => simp [nestingOfItems]
  | cons j js ih => rw [nestingOfItems, Nat.max_le, ih, List.forall_mem_cons]

theorem nesting_object_le {ms : List (String × Json)} {n : Nat} :
    (object ms).nesting ≤ n + 1 ↔ ∀ m ∈ ms, m.2.nesting ≤ n := by
  rw [nesting, Nat.add_le_add_iff_right]
  induction ms with
  | nil => simp [nestingOfMembers]
  | cons m ms ih => rw [nestingOfMembers, Nat.max_le, ih, List.forall_mem_cons]

end Json

end MessagePack
