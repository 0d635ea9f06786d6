import MessagePack.Proofs.SortedEntries
import MessagePack.Proofs.Value.Order
import MessagePack.Value.Order
import MessagePack.Value.Shape

/-!
# The nodes of a value

A value is a tree. Its nodes are the value itself and the nodes of its parts, depth first and each
key before its value.

* `Value.Encodable`: every length fits in 32 bits.
* `Value.Ordered`: the keys of every object strictly ascend. All objects that are built or decoded
  are like that.
-/

namespace MessagePack.Value

/-! ## Nodes -/

mutual

/-- The value and the nodes of its parts. -/
def nodes : Value → List Value
  | array vs => array vs :: nodesOfItems vs
  | object es => object es :: nodesOfEntries es
  | v => [v]

/-- The nodes of items. -/
def nodesOfItems : List Value → List Value
  | [] => []
  | v :: vs => v.nodes ++ nodesOfItems vs

/-- The nodes of entries. -/
def nodesOfEntries : List (Value × Value) → List Value
  | [] => []
  | (k, v) :: es => k.nodes ++ (v.nodes ++ nodesOfEntries es)

end

theorem nodes_of_isFlat {v : Value} (h : v.isFlat) : v.nodes = [v] := by
  cases v <;> first | rfl | cases h

theorem mem_nodesOfItems {n : Value} {vs : List Value} :
    n ∈ nodesOfItems vs ↔ ∃ v ∈ vs, n ∈ v.nodes := by
  induction vs with
  | nil => simp [nodesOfItems]
  | cons v vs ih => simp [nodesOfItems, ih]

theorem mem_nodesOfEntries {n : Value} {es : List (Value × Value)} :
    n ∈ nodesOfEntries es ↔ ∃ e ∈ es, n ∈ e.1.nodes ∨ n ∈ e.2.nodes := by
  induction es with
  | nil => simp [nodesOfEntries]
  | cons e es ih => simp [nodesOfEntries, ih, or_assoc]

/-- A property of all nodes. -/
def Everywhere (P : Value → Prop) (v : Value) : Prop := ∀ n ∈ v.nodes, P n

instance {P : Value → Prop} [DecidablePred P] (v : Value) : Decidable (v.Everywhere P) :=
  inferInstanceAs (Decidable (∀ n ∈ v.nodes, P n))

theorem everywhere_of_isFlat {P : Value → Prop} {v : Value} (h : v.isFlat) :
    v.Everywhere P ↔ P v := by
  simp [Everywhere, nodes_of_isFlat h]

theorem everywhere_array {P : Value → Prop} {vs : List Value} :
    (array vs).Everywhere P ↔ P (array vs) ∧ ∀ v ∈ vs, v.Everywhere P := by
  simp only [Everywhere, nodes, List.forall_mem_cons, mem_nodesOfItems]
  refine and_congr_right fun _ => ?_
  exact ⟨fun h v hv n hn => h n ⟨v, hv, hn⟩, fun h n ⟨v, hv, hn⟩ => h v hv n hn⟩

theorem everywhere_object {P : Value → Prop} {es : List (Value × Value)} :
    (object es).Everywhere P ↔
      P (object es) ∧ ∀ e ∈ es, e.1.Everywhere P ∧ e.2.Everywhere P := by
  simp only [Everywhere, nodes, List.forall_mem_cons, mem_nodesOfEntries]
  refine and_congr_right fun _ => ⟨fun h e he => ?_, fun h n ⟨e, he, hn⟩ => ?_⟩
  · exact ⟨fun n hn => h n ⟨e, he, .inl hn⟩, fun n hn => h n ⟨e, he, .inr hn⟩⟩
  · exact hn.elim ((h e he).1 n) ((h e he).2 n)

/-! ## Lengths -/

/-- The length that the encoding of a value begins with, where there is one. -/
def wireLength : Value → Nat
  | string bytes => bytes.length
  | binary bytes => bytes.length
  | extension _ data => data.length
  | array vs => vs.length
  | object es => es.length
  | _ => 0

/-- Every length fits in 32 bits. -/
def Encodable : Value → Prop := Everywhere fun n => n.wireLength < 2 ^ 32

instance (v : Value) : Decidable v.Encodable := by
  unfold Encodable
  infer_instance

/-! ## Keys -/

/-- The keys of every object strictly ascend. -/
def Ordered : Value → Prop := Everywhere fun n => SortedEntries.Ascending cmp n.entries

instance (v : Value) : Decidable v.Ordered := by
  unfold Ordered SortedEntries.Ascending
  infer_instance

theorem ordered_of_isFlat {v : Value} (h : v.isFlat) : v.Ordered := by
  refine (everywhere_of_isFlat h).2 ?_
  cases v <;> first | exact List.Pairwise.nil | cases h

/-- What pairs build is in order if their parts are. -/
theorem ordered_ofPairs {pairs : List (Value × Value)}
    (h : ∀ e ∈ pairs, e.1.Ordered ∧ e.2.Ordered) : (ofPairs pairs).Ordered := by
  refine everywhere_object.2 ⟨SortedEntries.ofPairs_ascending pairs, fun e he => h e ?_⟩
  exact SortedEntries.mem_of_mem_ofPairs he

/-! ## Depth -/

mutual

/-- How many levels below a value its innermost parts are. -/
def depth : Value → Nat
  | array vs => depthOfItems vs
  | object es => depthOfEntries es
  | _ => 0

/-- The depth of an array with these items. -/
def depthOfItems : List Value → Nat
  | [] => 0
  | v :: vs => max (v.depth + 1) (depthOfItems vs)

/-- The depth of an object with these entries. -/
def depthOfEntries : List (Value × Value) → Nat
  | [] => 0
  | (k, v) :: es => max (max (k.depth + 1) (v.depth + 1)) (depthOfEntries es)

end

theorem depth_lt_of_mem {v : Value} {vs : List Value} (h : v ∈ vs) :
    v.depth < (array vs).depth := by
  show v.depth < depthOfItems vs
  induction vs with
  | nil => cases h
  | cons w vs ih =>
    rw [depthOfItems]
    rcases List.mem_cons.1 h with rfl | h
    · omega
    · have := ih h
      omega

theorem depth_lt_of_mem_entries {e : Value × Value} {es : List (Value × Value)} (h : e ∈ es) :
    e.1.depth < (object es).depth ∧ e.2.depth < (object es).depth := by
  show e.1.depth < depthOfEntries es ∧ e.2.depth < depthOfEntries es
  induction es with
  | nil => cases h
  | cons f es ih =>
    rw [depthOfEntries]
    rcases List.mem_cons.1 h with rfl | h
    · omega
    · have := ih h
      omega

theorem depth_array_le {bound : Nat} {vs : List Value} (h : ∀ v ∈ vs, v.depth < bound) :
    (array vs).depth ≤ bound := by
  show depthOfItems vs ≤ bound
  induction vs with
  | nil => exact bound.zero_le
  | cons v vs ih =>
    obtain ⟨hv, hvs⟩ := List.forall_mem_cons.1 h
    exact Nat.max_le.2 ⟨hv, ih hvs⟩

theorem depth_object_le {bound : Nat} {es : List (Value × Value)}
    (h : ∀ e ∈ es, e.1.depth < bound ∧ e.2.depth < bound) : (object es).depth ≤ bound := by
  show depthOfEntries es ≤ bound
  induction es with
  | nil => exact bound.zero_le
  | cons e es ih =>
    obtain ⟨⟨hkey, hvalue⟩, hes⟩ := List.forall_mem_cons.1 h
    exact Nat.max_le.2 ⟨Nat.max_le.2 ⟨hkey, hvalue⟩, ih hes⟩

/-! ## Children -/

/-- The items of an array, and the keys and the values of an object, each key before its value. -/
def children : Value → List Value
  | array vs => vs
  | object es => es.flatMap fun e => [e.1, e.2]
  | _ => []

theorem mem_children_object {c : Value} {es : List (Value × Value)} :
    c ∈ (object es).children ↔ ∃ e ∈ es, c = e.1 ∨ c = e.2 := by
  simp [children]

theorem children_of_isFlat {v : Value} (h : v.isFlat) : v.children = [] := by
  cases v <;> first | rfl | cases h

/-- A property of all values, from values whose children have it. -/
@[elab_as_elim]
theorem inductionOnChildren {P : Value → Prop} (h : ∀ v, (∀ c ∈ v.children, P c) → P v)
    (v : Value) : P v := by
  induction v using Value.induction with
  | flat v hv =>
    refine h v fun c hc => ?_
    rw [children_of_isFlat hv] at hc
    cases hc
  | array vs hvs => exact h (array vs) hvs
  | object es hes =>
    refine h (object es) fun c hc => ?_
    obtain ⟨e, he, rfl | rfl⟩ := mem_children_object.1 hc
    · exact (hes e he).1
    · exact (hes e he).2

theorem everywhere_iff_children {P : Value → Prop} {v : Value} :
    v.Everywhere P ↔ P v ∧ ∀ c ∈ v.children, c.Everywhere P := by
  cases v with
  | array vs => exact everywhere_array
  | object es =>
    rw [everywhere_object]
    refine and_congr_right fun _ => ⟨fun h c hc => ?_, fun h e he => ?_⟩
    · obtain ⟨e, he, rfl | rfl⟩ := mem_children_object.1 hc
      · exact (h e he).1
      · exact (h e he).2
    · exact ⟨h e.1 (mem_children_object.2 ⟨e, he, .inl rfl⟩),
        h e.2 (mem_children_object.2 ⟨e, he, .inr rfl⟩)⟩
  | _ => simp [Everywhere, nodes, children]

theorem depth_lt_of_mem_children {c v : Value} (h : c ∈ v.children) : c.depth < v.depth := by
  cases v with
  | array vs => exact depth_lt_of_mem h
  | object es =>
    obtain ⟨e, he, rfl | rfl⟩ := mem_children_object.1 h
    · exact (depth_lt_of_mem_entries he).1
    · exact (depth_lt_of_mem_entries he).2
  | _ => cases h

theorem depth_le_of_children {bound : Nat} {v : Value} (h : ∀ c ∈ v.children, c.depth < bound) :
    v.depth ≤ bound := by
  cases v with
  | array vs => exact depth_array_le h
  | object es =>
    refine depth_object_le fun e he => ?_
    exact ⟨h e.1 (mem_children_object.2 ⟨e, he, .inl rfl⟩),
      h e.2 (mem_children_object.2 ⟨e, he, .inr rfl⟩)⟩
  | _ => exact bound.zero_le

end MessagePack.Value
