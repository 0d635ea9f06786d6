/-!
# Entries in key order

Finite maps as lists of key and value pairs in strictly ascending key order, under any order of keys
that is given as a comparison. Keys that compare equal are one key; the pair that comes later
replaces the earlier one, key included. Insertion keeps the order, so what a list of pairs builds
(`SortedEntries.ofPairs`) is in order.
-/

namespace MessagePack.SortedEntries

variable {κ α : Type}

/-- Puts a pair into entries that run from the greatest key down, in place of the entry with an
equal key if there is one. A key above all others costs one comparison. -/
def insertDescending (cmp : κ → κ → Ordering) (key : κ) (value : α) : List (κ × α) → List (κ × α)
  | [] => [(key, value)]
  | entry :: rest =>
    match cmp key entry.1 with
    | .gt => (key, value) :: entry :: rest
    | .eq => (key, value) :: rest
    | .lt => entry :: insertDescending cmp key value rest

/-- The entries that a list of pairs builds, in ascending key order; of pairs with equal keys the
last one stays. -/
def ofPairs (cmp : κ → κ → Ordering) (pairs : List (κ × α)) : List (κ × α) :=
  (pairs.foldl (fun entries pair => insertDescending cmp pair.1 pair.2 entries) []).reverse

/-- The value under a key. -/
def find? (cmp : κ → κ → Ordering) (key : κ) (entries : List (κ × α)) : Option α :=
  (entries.find? fun entry => cmp entry.1 key == .eq).map (·.2)

/-! ## Order -/

variable (cmp : κ → κ → Ordering)

/-- The keys strictly ascend. -/
def Ascending (entries : List (κ × α)) : Prop := entries.Pairwise fun e f => cmp e.1 f.1 = .lt

/-- The keys strictly descend. -/
def Descending (entries : List (κ × α)) : Prop := entries.Pairwise fun e f => cmp e.1 f.1 = .gt

variable {cmp}

/-- A key above all others goes in front. -/
theorem insertDescending_of_gt {key : κ} {value : α} {entries : List (κ × α)}
    (h : ∀ e ∈ entries, cmp key e.1 = .gt) :
    insertDescending cmp key value entries = (key, value) :: entries := by
  cases entries with
  | nil => rfl
  | cons e entries => rw [insertDescending, h e List.mem_cons_self]

theorem mem_insertDescending {key : κ} {value : α} {entries : List (κ × α)} {e : κ × α}
    (h : e ∈ insertDescending cmp key value entries) : e = (key, value) ∨ e ∈ entries := by
  induction entries with
  | nil => exact .inl (List.mem_singleton.1 h)
  | cons f entries ih =>
    rw [insertDescending] at h
    split at h
    · exact List.mem_cons.1 h
    · exact (List.mem_cons.1 h).imp_right (List.mem_cons_of_mem f)
    · rcases List.mem_cons.1 h with rfl | h
      · exact .inr List.mem_cons_self
      · exact (ih h).imp_right (List.mem_cons_of_mem f)

/-- Insertion keeps the order. -/
theorem insertDescending_ordered [Std.TransCmp cmp] (key : κ) (value : α)
    {entries : List (κ × α)} (h : Descending cmp entries) :
    Descending cmp (insertDescending cmp key value entries) := by
  induction entries with
  | nil => exact List.pairwise_singleton _ _
  | cons f entries ih =>
    obtain ⟨hf, hentries⟩ := List.pairwise_cons.1 h
    rw [insertDescending]
    split
    case h_1 hgt =>
      refine List.pairwise_cons.2 ⟨fun e he => ?_, h⟩
      rcases List.mem_cons.1 he with rfl | he
      · exact hgt
      · exact Std.TransCmp.gt_trans hgt (hf e he)
    case h_2 heq =>
      refine List.pairwise_cons.2 ⟨fun e he => ?_, hentries⟩
      rw [Std.TransCmp.congr_left heq]
      exact hf e he
    case h_3 hlt =>
      refine List.pairwise_cons.2 ⟨fun e he => ?_, ih hentries⟩
      rcases mem_insertDescending he with rfl | he
      · exact Std.OrientedCmp.gt_of_lt hlt
      · exact hf e he

theorem ascending_reverse [Std.OrientedCmp cmp] {entries : List (κ × α)} :
    Ascending cmp entries.reverse ↔ Descending cmp entries := by
  unfold Ascending Descending
  rw [List.pairwise_reverse]
  have hswap : ∀ a b, cmp b a = .lt ↔ cmp a b = .gt := fun _ _ => Std.OrientedCmp.gt_iff_lt.symm
  simp only [hswap]

/-! ## Pairs one after the other -/

/-- Puts pairs into entries that run from the greatest key down. -/
def insertAll (cmp : κ → κ → Ordering) (pairs entries : List (κ × α)) : List (κ × α) :=
  pairs.foldl (fun entries pair => insertDescending cmp pair.1 pair.2 entries) entries

theorem ofPairs_eq (pairs : List (κ × α)) : ofPairs cmp pairs = (insertAll cmp pairs []).reverse :=
  rfl

theorem insertAll_ordered [Std.TransCmp cmp] (pairs : List (κ × α)) {entries : List (κ × α)}
    (h : Descending cmp entries) : Descending cmp (insertAll cmp pairs entries) := by
  induction pairs generalizing entries with
  | nil => exact h
  | cons pair pairs ih => exact ih (insertDescending_ordered pair.1 pair.2 h)

/-- What pairs build is in order. -/
theorem ofPairs_ascending [Std.TransCmp cmp] (pairs : List (κ × α)) :
    Ascending cmp (ofPairs cmp pairs) :=
  ascending_reverse.2 (insertAll_ordered pairs List.Pairwise.nil)

end MessagePack.SortedEntries
