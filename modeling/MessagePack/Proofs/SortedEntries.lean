import MessagePack.SortedEntries
import Mathlib.Algebra.Order.BigOperators.Group.List
import Mathlib.Algebra.Order.Ring.Nat
import Mathlib.Data.List.Pairwise
import Mathlib.Data.List.Perm.Subperm
import Mathlib.Data.List.Sort

/-!
# What maps are made of

A map is made of pairs that it is built from, each taken once at most, and a look-up finds the last
pair with the key (`SortedEntries.find?_ofPairs`). So a map is the list of those pairs after which
none with an equal key comes, in key order (`SortedEntries.LastWins`), and pairs without equal keys
build the same map in any order.
-/

namespace MessagePack.SortedEntries

variable {κ α : Type} {cmp : κ → κ → Ordering}

/-! ## Nothing is added -/

/-- Insertion drops the entry with an equal key, and nothing else. -/
theorem insertDescending_subperm (key : κ) (value : α) (entries : List (κ × α)) :
    (insertDescending cmp key value entries).Subperm ((key, value) :: entries) := by
  induction entries with
  | nil => exact (List.Perm.refl _).subperm
  | cons e entries ih =>
    rw [insertDescending]
    split
    · exact (List.Perm.refl _).subperm
    · exact ((List.sublist_cons_self e entries).cons_cons _).subperm
    · exact ((List.subperm_cons e).2 ih).trans (List.Perm.swap _ _ _).subperm

theorem insertAll_subperm (pairs entries : List (κ × α)) :
    (insertAll cmp pairs entries).Subperm (pairs ++ entries) := by
  induction pairs generalizing entries with
  | nil => exact (List.Perm.refl entries).subperm
  | cons pair pairs ih =>
    have hinsert : (insertDescending cmp pair.1 pair.2 entries).Subperm (pair :: entries) :=
      insertDescending_subperm pair.1 pair.2 entries
    exact ((ih _).trans ((List.subperm_append_left pairs).2 hinsert)).trans
      List.perm_middle.subperm

/-- A map has each of the pairs that it is built from once at most. -/
theorem ofPairs_subperm (pairs : List (κ × α)) : (ofPairs cmp pairs).Subperm pairs := by
  have hentries : (insertAll cmp pairs []).Subperm (pairs ++ []) := insertAll_subperm pairs []
  rw [List.append_nil] at hentries
  rw [ofPairs_eq]
  exact (List.reverse_perm _).subperm.trans hentries

/-- Nothing is in a map but what was put into it. -/
theorem mem_of_mem_ofPairs {pairs : List (κ × α)} {e : κ × α} (h : e ∈ ofPairs cmp pairs) :
    e ∈ pairs := (ofPairs_subperm pairs).subset h

/-- Whatever entries weigh, a map weighs at most as much as the pairs that it is built from. -/
theorem sum_ofPairs_le (weight : κ × α → Nat) (pairs : List (κ × α)) :
    ((ofPairs cmp pairs).map weight).sum ≤ (pairs.map weight).sum := by
  obtain ⟨entries, hperm, hsub⟩ : (ofPairs cmp pairs).Subperm pairs := ofPairs_subperm pairs
  rw [← (hperm.map weight).sum_nat]
  exact (hsub.map weight).sum_le_sum fun n _ => n.zero_le

/-! ## Look-ups -/

/-- No two keys are equal. -/
def Distinct (cmp : κ → κ → Ordering) (entries : List (κ × α)) : Prop :=
  entries.Pairwise fun e f => cmp e.1 f.1 ≠ .eq

/-- The last of some pairs whose key equals the given one. -/
def lastPair? (cmp : κ → κ → Ordering) (key : κ) (pairs : List (κ × α)) : Option (κ × α) :=
  pairs.reverse.find? fun pair => cmp pair.1 key == .eq

theorem lastPair?_cons (key : κ) (pair : κ × α) (pairs : List (κ × α)) :
    lastPair? cmp key (pair :: pairs) =
      (lastPair? cmp key pairs).or (if cmp pair.1 key = .eq then some pair else none) := by
  simp [lastPair?, List.find?_cons]
  split <;> simp_all

theorem Ascending.distinct {entries : List (κ × α)} (h : Ascending cmp entries) :
    Distinct cmp entries := h.imp fun hlt => by simp [hlt]

section

variable [Std.TransCmp cmp] {entries : List (κ × α)} {key : κ} {e : κ × α}

theorem Distinct.eq_of_mem (h : Distinct cmp entries) {f : κ × α} (he : e ∈ entries)
    (hf : f ∈ entries) (heq : cmp e.1 f.1 = .eq) : e = f := by
  have hsymm : Std.Symm fun e f : κ × α => cmp e.1 f.1 ≠ .eq :=
    ⟨fun _ _ hne heq => hne (Std.OrientedCmp.eq_comm.1 heq)⟩
  by_contra hne
  exact h.forall he hf hne heq

/-- Where no two keys are equal, the entry under a key is the only one. -/
theorem Distinct.find?_eq_some_iff (h : Distinct cmp entries) :
    entries.find? (fun e => cmp e.1 key == .eq) = some e ↔ e ∈ entries ∧ cmp e.1 key = .eq := by
  constructor
  · intro hfind
    exact ⟨List.mem_of_find?_eq_some hfind, by simpa using List.find?_some hfind⟩
  · rintro ⟨he, heq⟩
    obtain ⟨f, hfind⟩ : ∃ f, entries.find? (fun e => cmp e.1 key == .eq) = some f :=
      Option.isSome_iff_exists.1 (List.find?_isSome.2 ⟨e, he, by simp [heq]⟩)
    have hf : cmp f.1 key = .eq := by simpa using List.find?_some hfind
    have hfe : cmp f.1 e.1 = .eq := Std.TransCmp.eq_trans hf (Std.OrientedCmp.eq_comm.1 heq)
    rw [hfind, h.eq_of_mem (List.mem_of_find?_eq_some hfind) he hfe]

/-- Insertion keeps what is there under other keys. -/
theorem mem_insertDescending_iff {value : α} (h : Descending cmp entries) :
    e ∈ insertDescending cmp key value entries ↔
      e = (key, value) ∨ e ∈ entries ∧ cmp key e.1 ≠ .eq := by
  induction entries with
  | nil => simp [insertDescending]
  | cons f entries ih =>
    obtain ⟨hf, hentries⟩ := List.pairwise_cons.1 h
    rw [insertDescending]
    split
    case h_1 hgt =>
      have habove : ∀ e ∈ f :: entries, cmp key e.1 = .gt :=
        List.forall_mem_cons.2 ⟨hgt, fun e he => Std.TransCmp.gt_trans hgt (hf e he)⟩
      grind
    case h_2 heq =>
      have habove : ∀ e ∈ entries, cmp key e.1 = .gt := fun e he => by
        rw [Std.TransCmp.congr_left heq, hf e he]
      grind
    case h_3 hlt =>
      have hne : cmp key f.1 ≠ .eq := by simp [hlt]
      rw [List.mem_cons, ih hentries]
      grind

/-- Of pairs put in one after the other, the last with each key stays. -/
theorem mem_insertAll_iff {pairs : List (κ × α)} (h : Descending cmp entries) :
    e ∈ insertAll cmp pairs entries ↔
      lastPair? cmp e.1 pairs = some e ∨ lastPair? cmp e.1 pairs = none ∧ e ∈ entries := by
  induction pairs generalizing entries with
  | nil => simp [insertAll, lastPair?]
  | cons pair pairs ih =>
    rw [insertAll, List.foldl_cons, ← insertAll, ih (insertDescending_ordered pair.1 pair.2 h),
      mem_insertDescending_iff h, lastPair?_cons]
    have hself : cmp e.1 e.1 = .eq := Std.ReflCmp.compare_self
    cases lastPair? cmp e.1 pairs with
    | some f => simp
    | none => by_cases heq : cmp pair.1 e.1 = .eq <;> grind

variable {pairs : List (κ × α)}

theorem mem_ofPairs_iff : e ∈ ofPairs cmp pairs ↔ lastPair? cmp e.1 pairs = some e := by
  rw [ofPairs_eq, List.mem_reverse, mem_insertAll_iff List.Pairwise.nil]
  simp

/-- The entry under a key is the last pair with that key, key included. -/
theorem find?_ofPairs (key : κ) (pairs : List (κ × α)) :
    (ofPairs cmp pairs).find? (fun e => cmp e.1 key == .eq) = lastPair? cmp key pairs := by
  refine Option.ext fun e => ?_
  have hkeys : cmp e.1 key = .eq → lastPair? cmp e.1 pairs = lastPair? cmp key pairs := by
    intro heq
    simp only [lastPair?, Std.TransCmp.congr_right heq]
  rw [(ofPairs_ascending pairs).distinct.find?_eq_some_iff, mem_ofPairs_iff]
  constructor
  · rintro ⟨hlast, heq⟩
    rwa [← hkeys heq]
  · intro hlast
    have heq : cmp e.1 key = .eq := by simpa using List.find?_some hlast
    exact ⟨(hkeys heq).trans hlast, heq⟩

/-- The key of every pair is there, or one that equals it. -/
theorem exists_mem_ofPairs {pair : κ × α} (h : pair ∈ pairs) :
    ∃ e ∈ ofPairs cmp pairs, cmp e.1 pair.1 = .eq := by
  obtain ⟨e, hlast⟩ : ∃ e, lastPair? cmp pair.1 pairs = some e :=
    Option.isSome_iff_exists.1
      (List.find?_isSome.2 ⟨pair, List.mem_reverse.2 h, by simp [Std.ReflCmp.compare_self]⟩)
  rw [← find?_ofPairs] at hlast
  exact ⟨e, (ofPairs_ascending pairs).distinct.find?_eq_some_iff.1 hlast⟩

/-- Where no two keys are equal, every pair stays. -/
theorem Distinct.mem_ofPairs_iff (h : Distinct cmp pairs) : e ∈ ofPairs cmp pairs ↔ e ∈ pairs := by
  have hreverse : Distinct cmp pairs.reverse :=
    List.pairwise_reverse.2 (h.imp fun hne heq => hne (Std.OrientedCmp.eq_comm.1 heq))
  rw [SortedEntries.mem_ofPairs_iff, lastPair?, hreverse.find?_eq_some_iff, List.mem_reverse]
  exact and_iff_left Std.ReflCmp.compare_self

/-- Entries in key order are determined by what they are. -/
theorem Ascending.eq_of_mem_iff {entries' : List (κ × α)} (h : Ascending cmp entries)
    (h' : Ascending cmp entries') (hmem : ∀ e, e ∈ entries ↔ e ∈ entries') :
    entries = entries' := by
  let before (e f : κ × α) : Prop := cmp e.1 f.1 = .lt
  have hantisymm : Std.Antisymm before :=
    ⟨fun e f hlt hgt => by cases hgt.symm.trans (Std.OrientedCmp.gt_of_lt hlt)⟩
  have hirrefl : Std.Irrefl before := ⟨fun e hlt => by cases hlt.symm.trans Std.ReflCmp.compare_self⟩
  exact List.Pairwise.eq_of_mem_iff (r := before) h h' hmem

theorem Distinct.perm (h : Distinct cmp pairs) {pairs' : List (κ × α)}
    (hperm : pairs'.Perm pairs) : Distinct cmp pairs' :=
  (hperm.pairwise_iff fun hne heq => hne (Std.OrientedCmp.eq_comm.1 heq)).2 h

/-- Where no two keys are equal, the order of the pairs does not matter. -/
theorem Distinct.ofPairs_eq_of_perm (h : Distinct cmp pairs) {pairs' : List (κ × α)}
    (hperm : pairs'.Perm pairs) : ofPairs cmp pairs' = ofPairs cmp pairs := by
  refine (ofPairs_ascending pairs').eq_of_mem_iff (ofPairs_ascending pairs) fun e => ?_
  rw [(h.perm hperm).mem_ofPairs_iff, h.mem_ofPairs_iff, hperm.mem_iff]

theorem Distinct.nodup (h : Distinct cmp entries) : entries.Nodup := by
  refine h.imp fun {e f} hne heq => hne ?_
  rw [heq]
  exact Std.ReflCmp.compare_self

/-- Where no two keys are equal, a map is an arrangement of the pairs that it is built from. -/
theorem Distinct.ofPairs_perm (h : Distinct cmp pairs) : (ofPairs cmp pairs).Perm pairs :=
  (List.perm_ext_iff_of_nodup (ofPairs_ascending pairs).distinct.nodup h.nodup).2
    fun _ => h.mem_ofPairs_iff

/-- Pairs that are in key order stay as they are. -/
theorem Ascending.ofPairs_eq (h : Ascending cmp pairs) : ofPairs cmp pairs = pairs :=
  (ofPairs_ascending pairs).eq_of_mem_iff h fun _ => h.distinct.mem_ofPairs_iff

theorem lastPair?_eq_self_iff : lastPair? cmp e.1 pairs = some e ↔
    ∃ front back, pairs = front ++ e :: back ∧ ∀ pair ∈ back, cmp pair.1 e.1 ≠ .eq := by
  have hself : cmp e.1 e.1 = .eq := Std.ReflCmp.compare_self
  rw [lastPair?, List.find?_eq_some_iff_append]
  constructor
  · rintro ⟨-, back, front, hsplit, hback⟩
    refine ⟨front.reverse, back.reverse, ?_, fun pair hpair => ?_⟩
    · rw [← List.reverse_reverse pairs, hsplit]
      simp
    · simpa using hback pair (List.mem_reverse.1 hpair)
  · rintro ⟨front, back, rfl, hback⟩
    refine ⟨by simp [hself], back.reverse, front.reverse, by simp, fun pair hpair => ?_⟩
    simpa using hback pair (List.mem_reverse.1 hpair)

end

/-- The entries are the pairs after which none with an equal key comes, in key order. -/
structure LastWins (cmp : κ → κ → Ordering) (pairs entries : List (κ × α)) : Prop where
  ascending : Ascending cmp entries
  mem_iff (e : κ × α) : e ∈ entries ↔
    ∃ front back, pairs = front ++ e :: back ∧ ∀ pair ∈ back, cmp pair.1 e.1 ≠ .eq

theorem lastWins_ofPairs [Std.TransCmp cmp] (pairs : List (κ × α)) :
    LastWins cmp pairs (ofPairs cmp pairs) where
  ascending := ofPairs_ascending pairs
  mem_iff _ := mem_ofPairs_iff.trans lastPair?_eq_self_iff

/-- There is one map only in which the last pairs win. -/
theorem LastWins.eq_ofPairs [Std.TransCmp cmp] {pairs entries : List (κ × α)}
    (h : LastWins cmp pairs entries) : entries = ofPairs cmp pairs :=
  h.ascending.eq_of_mem_iff (ofPairs_ascending pairs) fun e =>
    (h.mem_iff e).trans ((lastWins_ofPairs pairs).mem_iff e).symm

end MessagePack.SortedEntries
