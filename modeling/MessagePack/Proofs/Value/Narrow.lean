import MessagePack.Proofs.Value.Nodes
import Mathlib.Data.List.Forall2
import Mathlib.Tactic.SplitIfs

/-!
# Values up to the width of integers

An encoding does not tell how wide an integer was, so decoding gives every integer the narrowest
width that can hold it, unsigned if it is not negative. All else is kept.

* `Value.Same`: values that differ in the widths of integers only.
* `Value.narrow`: the value with every integer in its narrowest width.
-/

namespace MessagePack.Value

/-! ## Sameness -/

mutual

/-- Whether values differ in the widths of integers only. -/
def Same : Value → Value → Prop
  | array vs, array ws => SameItems vs ws
  | object es, object fs => SameEntries es fs
  | v, w => v.int? = w.int? ∧ (v.int? = none → v = w)

/-- Whether items are the same one by one. -/
def SameItems : List Value → List Value → Prop
  | [], [] => True
  | v :: vs, w :: ws => Same v w ∧ SameItems vs ws
  | _, _ => False

/-- Whether entries are the same one by one. -/
def SameEntries : List (Value × Value) → List (Value × Value) → Prop
  | [], [] => True
  | (k, v) :: es, (k', v') :: es' => Same k k' ∧ Same v v' ∧ SameEntries es es'
  | _, _ => False

end

/-! ## Narrowing -/

/-- The integer in the narrowest width that can hold it. -/
def narrowInt (i : Int) : Value :=
  if 0 ≤ i then
    if i < 0x100 then uint8 (UInt8.ofNat i.toNat)
    else if i < 0x10000 then uint16 (UInt16.ofNat i.toNat)
    else if i < 0x100000000 then uint32 (UInt32.ofNat i.toNat)
    else uint64 (UInt64.ofNat i.toNat)
  else if -0x80 ≤ i then int8 (Int8.ofInt i)
  else if -0x8000 ≤ i then int16 (Int16.ofInt i)
  else if -0x80000000 ≤ i then int32 (Int32.ofInt i)
  else int64 (Int64.ofInt i)

mutual

/-- The value with every integer in its narrowest width. -/
def narrow : Value → Value
  | array vs => array (narrowItems vs)
  | object es => object (narrowEntries es)
  | v => v.int?.elim v narrowInt

/-- Items with every integer in its narrowest width. -/
def narrowItems : List Value → List Value
  | [] => []
  | v :: vs => v.narrow :: narrowItems vs

/-- Entries with every integer in its narrowest width. -/
def narrowEntries : List (Value × Value) → List (Value × Value)
  | [] => []
  | (k, v) :: es => (k.narrow, v.narrow) :: narrowEntries es

end

theorem narrowItems_eq_map (vs : List Value) : narrowItems vs = vs.map narrow := by
  induction vs with
  | nil => rfl
  | cons v vs ih => rw [narrowItems, ih, List.map_cons]

theorem narrowEntries_eq_map (es : List (Value × Value)) :
    narrowEntries es = es.map (Prod.map narrow narrow) := by
  induction es with
  | nil => rfl
  | cons e es ih => rw [narrowEntries, ih, List.map_cons, Prod.map]

theorem narrow_of_isFlat {v : Value} (h : v.isFlat) : v.narrow = v.int?.elim v narrowInt := by
  cases v <;> first | rfl | cases h

/-- The narrowest width is wide enough. -/
theorem int?_narrowInt {i : Int} (hmin : -2 ^ 63 ≤ i) (hmax : i < 2 ^ 64) :
    (narrowInt i).int? = some i := by
  unfold narrowInt
  split_ifs with h0 h8 h16 h32 h7 h15 h31 <;> refine congrArg some ?_
  · rw [UInt8.toNat_ofNat_of_lt' (show i.toNat < 2 ^ 8 by omega), Int.toNat_of_nonneg h0]
  · rw [UInt16.toNat_ofNat_of_lt' (show i.toNat < 2 ^ 16 by omega), Int.toNat_of_nonneg h0]
  · rw [UInt32.toNat_ofNat_of_lt' (show i.toNat < 2 ^ 32 by omega), Int.toNat_of_nonneg h0]
  · rw [UInt64.toNat_ofNat_of_lt' (show i.toNat < 2 ^ 64 by omega), Int.toNat_of_nonneg h0]
  · exact Int8.toInt_ofInt_of_le h7 (by omega)
  · exact Int16.toInt_ofInt_of_le h15 (by omega)
  · exact Int32.toInt_ofInt_of_le h31 (by omega)
  · exact Int64.toInt_ofInt_of_le hmin (by omega)

theorem narrowInt_natCast (n : Nat) :
    narrowInt n =
      if n < 0x100 then uint8 (UInt8.ofNat n)
      else if n < 0x10000 then uint16 (UInt16.ofNat n)
      else if n < 0x100000000 then uint32 (UInt32.ofNat n)
      else uint64 (UInt64.ofNat n) := by
  unfold narrowInt
  rw [if_pos (Int.natCast_nonneg n), Int.toNat_natCast]
  split_ifs <;> first | rfl | omega

/-- The two's complement of a negative integer. -/
theorem ofNat_add_two_pow {width : Nat} {i : Int} (h : -2 ^ width ≤ i) :
    BitVec.ofNat width (i + 2 ^ width).toNat = BitVec.ofInt width i := by
  apply BitVec.eq_of_toNat_eq
  have hcast : ((i + 2 ^ width).toNat : Int) = i + 2 ^ width := Int.toNat_of_nonneg (by omega)
  have hpow : ((2 ^ width : Nat) : Int) = 2 ^ width := by push_cast; rfl
  have hmod : (((i + 2 ^ width).toNat % 2 ^ width : Nat) : Int) = i % 2 ^ width := by
    rw [Int.natCast_emod, hcast, hpow, Int.add_emod_right]
  rw [BitVec.toNat_ofNat, BitVec.toNat_ofInt, hpow, ← hmod, Int.toNat_natCast]

/-! ## What sameness keeps -/

theorem isFlat_of_int? {v : Value} {i : Int} (h : v.int? = some i) : v.isFlat := by
  cases v <;> first | rfl | cases h

theorem same_of_isFlat {v w : Value} (hv : v.isFlat) :
    v.Same w ↔ v.int? = w.int? ∧ (v.int? = none → v = w) := by
  cases v <;> first | rfl | cases hv

theorem sameItems_iff {vs ws : List Value} : SameItems vs ws ↔ List.Forall₂ Same vs ws := by
  induction vs generalizing ws with
  | nil => cases ws <;> simp [SameItems]
  | cons v vs ih => cases ws <;> simp [SameItems, ih]

theorem sameEntries_iff {es fs : List (Value × Value)} :
    SameEntries es fs ↔ List.Forall₂ (fun e f => Same e.1 f.1 ∧ Same e.2 f.2) es fs := by
  induction es generalizing fs with
  | nil => cases fs <;> simp [SameEntries]
  | cons e es ih => cases fs <;> simp [SameEntries, ih, and_assoc]

/-- Values are the same by the integers that they hold, by being equal, or part by part. -/
@[elab_as_elim]
theorem Same.induction {P : Value → Value → Prop}
    (int : ∀ v w i, v.int? = some i → w.int? = some i → P v w) (flat : ∀ v, v.isFlat → P v v)
    (array : ∀ vs ws, List.Forall₂ P vs ws → P (.array vs) (.array ws))
    (object : ∀ es fs, List.Forall₂ (fun e f => P e.1 f.1 ∧ P e.2 f.2) es fs →
      P (.object es) (.object fs))
    {v w : Value} (h : v.Same w) : P v w := by
  induction v using Value.induction generalizing w with
  | flat v hv =>
    obtain ⟨hint, heq⟩ := (same_of_isFlat hv).1 h
    cases hi : v.int? with
    | none => exact heq hi ▸ flat v hv
    | some i => exact int v w i hi (hint.symm.trans hi)
  | array vs hvs =>
    cases w with
    | array ws =>
      refine array vs ws ?_
      replace h := sameItems_iff.1 h
      induction h with
      | nil => exact .nil
      | cons hv _ ih =>
        exact .cons (hvs _ List.mem_cons_self hv) (ih fun v hv => hvs v (List.mem_cons_of_mem _ hv))
    | _ => cases h.2 rfl
  | object es hes =>
    cases w with
    | object fs =>
      refine object es fs ?_
      replace h := sameEntries_iff.1 h
      induction h with
      | nil => exact .nil
      | cons he _ ih =>
        obtain ⟨hkey, hvalue⟩ := hes _ List.mem_cons_self
        exact .cons ⟨hkey he.1, hvalue he.2⟩ (ih fun e he => hes e (List.mem_cons_of_mem _ he))
    | _ => cases h.2 rfl

theorem same_of_int? {v w : Value} {i : Int} (hv : v.int? = some i) (hw : w.int? = some i) :
    v.Same w := by
  refine (same_of_isFlat (isFlat_of_int? hv)).2 ⟨hv.trans hw.symm, fun hnone => ?_⟩
  rw [hv] at hnone
  cases hnone

theorem Same.refl (v : Value) : v.Same v := by
  induction v using Value.induction with
  | flat v hv => exact (same_of_isFlat hv).2 ⟨rfl, fun _ => rfl⟩
  | array vs hvs => exact sameItems_iff.2 (List.forall₂_same.2 hvs)
  | object es hes => exact sameEntries_iff.2 (List.forall₂_same.2 hes)

theorem Same.symm {v w : Value} (h : v.Same w) : w.Same v := by
  refine Same.induction ?int ?flat ?array ?object h
  case int => exact fun v w i hv hw => same_of_int? hw hv
  case flat => exact fun v hv => (same_of_isFlat hv).2 ⟨rfl, fun _ => rfl⟩
  case array => exact fun vs ws h => sameItems_iff.2 h.flip
  case object => exact fun es fs h => sameEntries_iff.2 h.flip

/-- Narrowing changes the widths of integers only. -/
theorem same_narrow (v : Value) : v.Same v.narrow := by
  induction v using Value.induction with
  | flat v hv =>
    rw [same_of_isFlat hv, narrow_of_isFlat hv]
    cases h : v.int? with
    | none => exact ⟨h.symm, fun _ => rfl⟩
    | some i =>
      obtain ⟨hmin, hmax⟩ := int?_bounds h
      exact ⟨(int?_narrowInt hmin hmax).symm, nofun⟩
  | array vs hvs =>
    show SameItems vs (narrowItems vs)
    rw [sameItems_iff, narrowItems_eq_map, List.forall₂_map_right_iff, List.forall₂_same]
    exact hvs
  | object es hes =>
    show SameEntries es (narrowEntries es)
    rw [sameEntries_iff, narrowEntries_eq_map, List.forall₂_map_right_iff, List.forall₂_same]
    exact hes

theorem number?_of_int? {v : Value} {i : Int} (h : v.int? = some i) :
    v.number? = some (.int i) := by
  cases v <;> first | exact congrArg (Option.map Numeral.int) h | cases h

/-- Values that differ in the widths of integers only are spelled alike. -/
theorem tokens_of_same {v w : Value} (h : v.Same w) : v.tokens = w.tokens := by
  refine Same.induction ?int ?flat ?array ?object h
  case int =>
    intro v w i hv hw
    rw [tokens_of_isFlat (isFlat_of_int? hv), tokens_of_isFlat (isFlat_of_int? hw),
      token_number (number?_of_int? hv), token_number (number?_of_int? hw)]
  case flat => exact fun v hv => rfl
  case array =>
    intro vs ws h
    have hitems : tokensOfItems vs = tokensOfItems ws := by
      induction h with
      | nil => rfl
      | cons hv _ ih => rw [tokensOfItems, tokensOfItems, hv, ih]
    show _ :: _ = _ :: _
    rw [hitems]
    rfl
  case object =>
    intro es fs h
    have hentries : tokensOfEntries es = tokensOfEntries fs := by
      induction h with
      | nil => rfl
      | cons he _ ih => rw [tokensOfEntries, tokensOfEntries, he.1, he.2, ih]
    show _ :: _ = _ :: _
    rw [hentries]
    rfl

/-- Values that differ in the widths of integers only are equal. -/
theorem beq_of_same {v w : Value} (h : v.Same w) : v == w := by
  rw [beq_iff, cmp_eq_compareLex_tokens, tokens_of_same h]
  exact Std.ReflCmp.compare_self

/-- Narrowing keeps the order of values. -/
theorem cmp_narrow (v w : Value) : v.narrow.cmp w.narrow = v.cmp w :=
  (cmp_congr (beq_of_same v.same_narrow) (beq_of_same w.same_narrow)).symm

end MessagePack.Value
