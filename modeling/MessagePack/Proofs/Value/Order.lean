import MessagePack.Proofs.Number.Comparison
import MessagePack.Value.Basic
import MessagePack.Value.Order

/-!
# The order of values is total

Every value is spelled as a string of tokens, so that the order of values is the lexicographic order
of the strings (`Value.compareLex_tokens`): a token of its own for what has no parts, and for arrays
and objects an opening token, the parts and a closing token. The closing token is below all others,
which puts a proper beginning first. Lexicographic orders of total orders are total.
-/

namespace MessagePack.Value

/-! ## Induction on values -/

/-- Neither an array nor an object. -/
def isFlat : Value → Bool
  | array _ | object _ => false
  | _ => true

theorem sizeOf_lt_of_mem_entries {e : Value × Value} {es : List (Value × Value)} (h : e ∈ es) :
    sizeOf e.1 < sizeOf es ∧ sizeOf e.2 < sizeOf es := by
  have := List.sizeOf_lt_of_mem h
  have : sizeOf e = 1 + sizeOf e.1 + sizeOf e.2 := rfl
  omega

/-- The parts of an array are its items, those of an object its keys and its values. -/
@[elab_as_elim]
theorem induction {P : Value → Prop} (flat : ∀ v, v.isFlat → P v)
    (array : ∀ vs, (∀ v ∈ vs, P v) → P (.array vs))
    (object : ∀ es, (∀ e ∈ es, P e.1 ∧ P e.2) → P (.object es)) (v : Value) : P v := by
  by_cases hflat : v.isFlat
  · exact flat v hflat
  · cases v with
    | array vs => exact array vs fun v _ => induction flat array object v
    | object es =>
      exact object es fun e _ => ⟨induction flat array object e.1, induction flat array object e.2⟩
    | _ => exact absurd rfl hflat
termination_by sizeOf v
decreasing_by
  · rename_i hv _
    subst hv
    have := List.sizeOf_lt_of_mem ‹v ∈ vs›
    simp
    omega
  all_goals
    rename_i hv _
    subst hv
    have := sizeOf_lt_of_mem_entries ‹e ∈ es›
    simp
    omega

end MessagePack.Value

namespace MessagePack

instance : Ord Exact := ⟨Exact.cmp⟩

instance : Std.TransOrd Exact := inferInstanceAs (Std.TransCmp Exact.cmp)

namespace Value

/-! ## Numbers -/

/-- The exact number that a numeric value denotes. -/
def exactNumber? : Value → Option Exact
  | float32 x => some x.exact
  | float64 x => some x.exact
  | v => v.int?.map .ofInt

/-- Integers of every width fit 64 bits. -/
theorem int?_bounds {v : Value} {i : Int} (h : v.int? = some i) : -2 ^ 63 ≤ i ∧ i < 2 ^ 64 := by
  cases v <;> simp only [int?, Option.some.injEq, reduceCtorEq] at h <;> subst h
  case int8 i => have := i.toInt_lt; have := i.le_toInt; omega
  case int16 i => have := i.toInt_lt; have := i.le_toInt; omega
  case int32 i => have := i.toInt_lt; have := i.le_toInt; omega
  case int64 i => have := i.toInt_lt; have := i.le_toInt; omega
  case uint8 n => have := n.toNat_lt; omega
  case uint16 n => have := n.toNat_lt; omega
  case uint32 n => have := n.toNat_lt; omega
  case uint64 n => have := n.toNat_lt; omega

/-- A numeric value is compared by its exact value, which 64 bits or a double hold. -/
theorem number?_spec {v : Value} {n : Numeral} (h : v.number? = some n) :
    v.exactNumber? = some n.exact ∧ n.InRange ∧ v.kind.rank = 1 := by
  have hint : ∀ i, v.int? = some i → (Numeral.int i).InRange := fun _ => int?_bounds
  cases v <;> simp only [number?, int?, Option.map, Option.some.injEq, reduceCtorEq] at h <;>
    subst h
  case float32 x => exact ⟨congrArg some (exact_widen x).symm, trivial, rfl⟩
  case float64 x => exact ⟨rfl, trivial, rfl⟩
  all_goals exact ⟨rfl, hint _ rfl, rfl⟩

/-- The numbers have one rank. -/
theorem number?_of_rank {v : Value} (h : v.kind.rank = 1) : ∃ n, v.number? = some n := by
  cases v <;> first | exact ⟨_, rfl⟩ | cases h

end Value

/-! ## Tokens -/

/-- A part of the spelling of a value. What a token does not say is left at a default. -/
structure Token where
  rank : Nat
  number : Exact := .nan
  flag : Bool := false
  type : Int8 := 0
  bytes : Bytes := []

namespace Token

/-- The order of tokens, lexicographic in the fields. -/
def cmp : Token → Token → Ordering :=
  compareLex (compareOn rank) <| compareLex (compareOn number) <|
    compareLex (compareOn flag) <| compareLex (compareOn type) (compareOn bytes)

instance : Std.TransCmp cmp := by
  unfold cmp
  infer_instance

/-- The token after the parts of an array or an object. -/
def close : Token := { rank := 0 }

theorem cmp_of_rank {a b : Token} (h : compare a.rank b.rank ≠ .eq) :
    cmp a b = compare a.rank b.rank := by
  simp only [cmp, compareLex, compareOn]
  cases hr : compare a.rank b.rank <;> simp_all

/-- The closing token comes before all others. -/
theorem close_cmp {a : Token} (h : 0 < a.rank) : close.cmp a = .lt := by
  have hlt : compare close.rank a.rank = .lt := Nat.compare_eq_lt.2 h
  rw [cmp_of_rank (by simp [hlt]), hlt]

theorem cmp_close {a : Token} (h : 0 < a.rank) : a.cmp close = .gt := by
  have hswap : a.cmp close = (close.cmp a).swap := Std.OrientedCmp.eq_swap
  rw [hswap, close_cmp h]
  rfl

end Token

namespace Value

/-- The first token of a value, which is the only one of a value without parts. -/
def token : Value → Token
  | bool b => { rank := 3, flag := b }
  | string bytes => { rank := 4, bytes }
  | binary bytes => { rank := 5, bytes }
  | extension type data => { rank := 8, type, bytes := data }
  | v => { rank := v.kind.rank + 1, number := v.exactNumber?.getD .nan }

@[simp] theorem rank_token (v : Value) : v.token.rank = v.kind.rank + 1 := by
  cases v <;> rfl

mutual

/-- The spelling of a value. -/
def tokens : Value → List Token
  | array vs => (array vs).token :: tokensOfItems vs
  | object es => (object es).token :: tokensOfEntries es
  | v => [v.token]

/-- The spelling of items up to the end of their array. -/
def tokensOfItems : List Value → List Token
  | [] => [.close]
  | v :: vs => v.tokens ++ tokensOfItems vs

/-- The spelling of entries up to the end of their object. -/
def tokensOfEntries : List (Value × Value) → List Token
  | [] => [.close]
  | (k, v) :: es => k.tokens ++ (v.tokens ++ tokensOfEntries es)

end

/-- The spelling of every value begins with its first token. -/
theorem tokens_eq_cons (v : Value) : ∃ ts, v.tokens = v.token :: ts := by
  cases v <;> exact ⟨_, rfl⟩

theorem tokens_of_isFlat {v : Value} (h : v.isFlat) : v.tokens = [v.token] := by
  cases v <;> first | rfl | cases h

/-- Numbers compare as numbers. -/
theorem cmpFlat_number {a b : Value} {x y : Numeral} (ha : a.number? = some x)
    (hb : b.number? = some y) : a.cmpFlat b = x.cmp y := by
  obtain ⟨-, -, hr⟩ := number?_spec ha
  unfold cmpFlat
  split
  · cases hr
  · cases hr
  · cases hr
  · cases hr
  · rw [ha, hb]

theorem isFlat_iff {v : Value} : v.isFlat ↔ v.kind.rank ≠ 5 ∧ v.kind.rank ≠ 6 := by
  cases v <;> simp [isFlat, kind, Kind.rank]

/-- The token of a number holds its exact value. -/
theorem token_number {v : Value} {x : Numeral} (h : v.number? = some x) :
    v.token = { rank := 2, number := x.exact } := by
  obtain ⟨hx, -, hr⟩ := number?_spec h
  have htoken : v.token = { rank := v.kind.rank + 1, number := v.exactNumber?.getD .nan } := by
    cases v <;> first | rfl | cases h
  rw [htoken, hx, hr]
  rfl

theorem cmp_of_rank {a b : Value} (h : compare a.kind.rank b.kind.rank ≠ .eq) :
    a.cmp b = compare a.kind.rank b.kind.rank := by
  unfold cmp
  split
  · contradiction
  · rfl

theorem token_cmp_of_rank {a b : Value} (h : a.kind.rank ≠ b.kind.rank) :
    a.token.cmp b.token = compare a.kind.rank b.kind.rank := by
  have hne : compare a.token.rank b.token.rank ≠ .eq := by simpa using h
  rw [Token.cmp_of_rank hne, rank_token, rank_token]
  grind [Nat.compare_eq_ite_lt]

theorem cmp_array (vs ws : List Value) : (array vs).cmp (array ws) = cmpItems vs ws := by
  unfold cmp
  rfl

theorem cmp_object (es fs : List (Value × Value)) :
    (object es).cmp (object fs) = cmpEntries es fs := by
  unfold cmp
  rfl

theorem cmpItems_cons (v w : Value) (vs ws : List Value) :
    cmpItems (v :: vs) (w :: ws) = (v.cmp w).then (cmpItems vs ws) := by
  rw [cmpItems]
  cases v.cmp w <;> rfl

theorem cmpEntries_cons (k v k' v' : Value) (es es' : List (Value × Value)) :
    cmpEntries ((k, v) :: es) ((k', v') :: es')
      = (k.cmp k').then ((v.cmp v').then (cmpEntries es es')) := by
  rw [cmpEntries]
  cases k.cmp k' <;> cases v.cmp v' <;> rfl

theorem cmp_eq_cmpFlat {a b : Value} (ha : a.isFlat) (h : a.kind.rank = b.kind.rank) :
    a.cmp b = a.cmpFlat b := by
  unfold cmp
  rw [h, Nat.compare_eq_eq.2 rfl]
  cases a <;> first | rfl | cases ha

theorem cmp_string (bs bs' : Bytes) : (string bs).cmp (string bs') = compare bs bs' :=
  cmp_eq_cmpFlat rfl rfl

/-- Values of one rank that are not numbers and have no parts compare by what they hold. -/
theorem cmpFlat_of_ne {a b : Value} (ha : a.isFlat) (hr : a.kind.rank = b.kind.rank)
    (hnum : a.kind.rank ≠ 1) : a.cmpFlat b = a.token.cmp b.token := by
  cases a <;> try first | exact absurd rfl hnum | cases ha
  all_goals
    cases b <;> first
      | simp [cmpFlat, token, number?, int?, exactNumber?, Token.cmp, compareLex, compareOn]; done
      | cases hr

/-- Values without parts compare by their tokens. -/
theorem cmp_flat {a b : Value} (ha : a.isFlat) : a.cmp b = a.token.cmp b.token := by
  by_cases hr : a.kind.rank = b.kind.rank
  · rw [cmp_eq_cmpFlat ha hr]
    by_cases hnum : a.kind.rank = 1
    · obtain ⟨x, hx⟩ := number?_of_rank hnum
      obtain ⟨y, hy⟩ := number?_of_rank (hr ▸ hnum)
      obtain ⟨-, hinx, -⟩ := number?_spec hx
      obtain ⟨-, hiny, -⟩ := number?_spec hy
      rw [cmpFlat_number hx hy, token_number hx, token_number hy, Numeral.cmp_eq hinx hiny]
      simp only [Token.cmp, compareLex, compareOn, Std.ReflCmp.compare_self, Ordering.then_eq,
        Ordering.eq_then]
      rfl
    · exact cmpFlat_of_ne ha hr hnum
  · have hne : compare a.kind.rank b.kind.rank ≠ .eq := by simpa using hr
    rw [cmp_of_rank hne, token_cmp_of_rank hr]

/-! ## Spellings -/

/-- Comparing a value with another is comparing their spellings, whatever comes after these. -/
def ComparesByTokens (a : Value) : Prop :=
  ∀ (b : Value) (s t : List Token),
    List.compareLex Token.cmp (a.tokens ++ s) (b.tokens ++ t)
      = (a.cmp b).then (List.compareLex Token.cmp s t)

/-- Values of different ranks are told apart by their first tokens. -/
theorem compareLex_tokens_of_rank {a b : Value} (h : a.kind.rank ≠ b.kind.rank)
    (s t : List Token) :
    List.compareLex Token.cmp (a.tokens ++ s) (b.tokens ++ t)
      = (a.cmp b).then (List.compareLex Token.cmp s t) := by
  obtain ⟨ta, ha⟩ := tokens_eq_cons a
  obtain ⟨tb, hb⟩ := tokens_eq_cons b
  have hne : compare a.kind.rank b.kind.rank ≠ .eq := by simpa using h
  rw [ha, hb, List.cons_append, List.cons_append, List.compareLex_cons_cons, token_cmp_of_rank h,
    cmp_of_rank hne]
  cases hr : compare a.kind.rank b.kind.rank with
  | lt => rfl
  | gt => rfl
  | eq => contradiction

theorem compareLex_tokensOfItems {vs : List Value} (hvs : ∀ v ∈ vs, v.ComparesByTokens)
    (ws : List Value) (s t : List Token) :
    List.compareLex Token.cmp (tokensOfItems vs ++ s) (tokensOfItems ws ++ t)
      = (cmpItems vs ws).then (List.compareLex Token.cmp s t) := by
  induction vs generalizing ws with
  | nil =>
    cases ws with
    | nil =>
      simp [tokensOfItems, cmpItems, List.compareLex_cons_cons, Std.ReflCmp.compare_self]
    | cons w ws =>
      obtain ⟨tw, hw⟩ := tokens_eq_cons w
      simp [tokensOfItems, cmpItems, hw, List.compareLex_cons_cons, Token.close_cmp]
  | cons v vs ih =>
    cases ws with
    | nil =>
      obtain ⟨tv, hv⟩ := tokens_eq_cons v
      simp [tokensOfItems, cmpItems, hv, List.compareLex_cons_cons, Token.cmp_close]
    | cons w ws =>
      have ih := ih (fun v hv => hvs v (List.mem_cons_of_mem _ hv)) ws
      simp only [tokensOfItems, List.append_assoc]
      rw [hvs v List.mem_cons_self, ih, cmpItems_cons, Ordering.then_assoc]

theorem compareLex_tokensOfEntries {es : List (Value × Value)}
    (hes : ∀ e ∈ es, e.1.ComparesByTokens ∧ e.2.ComparesByTokens)
    (fs : List (Value × Value)) (s t : List Token) :
    List.compareLex Token.cmp (tokensOfEntries es ++ s) (tokensOfEntries fs ++ t)
      = (cmpEntries es fs).then (List.compareLex Token.cmp s t) := by
  induction es generalizing fs with
  | nil =>
    cases fs with
    | nil =>
      simp [tokensOfEntries, cmpEntries, List.compareLex_cons_cons, Std.ReflCmp.compare_self]
    | cons f fs =>
      obtain ⟨tk, hk⟩ := tokens_eq_cons f.1
      simp [tokensOfEntries, cmpEntries, hk, List.compareLex_cons_cons, Token.close_cmp]
  | cons e es ih =>
    cases fs with
    | nil =>
      obtain ⟨tk, hk⟩ := tokens_eq_cons e.1
      simp [tokensOfEntries, cmpEntries, hk, List.compareLex_cons_cons, Token.cmp_close]
    | cons f fs =>
      obtain ⟨hkey, hvalue⟩ := hes e List.mem_cons_self
      have ih := ih (fun e he => hes e (List.mem_cons_of_mem _ he)) fs
      simp only [tokensOfEntries, List.append_assoc]
      rw [hkey, hvalue, ih, cmpEntries_cons, Ordering.then_assoc, Ordering.then_assoc]

/-- Comparing values is comparing their spellings. -/
theorem compareLex_tokens (a : Value) : a.ComparesByTokens := by
  induction a using Value.induction with
  | flat a ha =>
    intro b s t
    by_cases hr : a.kind.rank = b.kind.rank
    · have hb : b.isFlat := isFlat_iff.2 (hr ▸ isFlat_iff.1 ha)
      rw [tokens_of_isFlat ha, tokens_of_isFlat hb, cmp_flat ha]
      exact List.compareLex_cons_cons
    · exact compareLex_tokens_of_rank hr s t
  | array vs hvs =>
    intro b s t
    by_cases hr : (array vs).kind.rank = b.kind.rank
    · cases b with
      | array ws =>
        have htoken : (array vs).token.cmp (array ws).token = .eq := Std.ReflCmp.compare_self
        simp only [tokens, List.cons_append, List.compareLex_cons_cons, htoken, Ordering.eq_then,
          compareLex_tokensOfItems hvs, cmp_array]
      | _ => cases hr
    · exact compareLex_tokens_of_rank hr s t
  | object es hes =>
    intro b s t
    by_cases hr : (object es).kind.rank = b.kind.rank
    · cases b with
      | object fs =>
        have htoken : (object es).token.cmp (object fs).token = .eq := Std.ReflCmp.compare_self
        simp only [tokens, List.cons_append, List.compareLex_cons_cons, htoken, Ordering.eq_then,
          compareLex_tokensOfEntries hes, cmp_object]
      | _ => cases hr
    · exact compareLex_tokens_of_rank hr s t

/-! ## The order -/

/-- The order of values is the lexicographic order of their spellings. -/
theorem cmp_eq_compareLex_tokens (a b : Value) :
    a.cmp b = List.compareLex Token.cmp a.tokens b.tokens := by
  have h := compareLex_tokens a b [] []
  rw [List.append_nil, List.append_nil, List.compareLex_nil_nil, Ordering.then_eq] at h
  exact h.symm

instance : Std.TransCmp cmp where
  eq_swap {a b} := by
    rw [cmp_eq_compareLex_tokens a b, cmp_eq_compareLex_tokens b a]
    exact Std.OrientedCmp.eq_swap
  isLE_trans {a b c} hab hbc := by
    rw [cmp_eq_compareLex_tokens] at hab hbc ⊢
    exact Std.TransCmp.isLE_trans hab hbc

theorem beq_iff {a b : Value} : a == b ↔ a.cmp b = .eq := by
  show (a.cmp b == .eq) ↔ a.cmp b = .eq
  exact beq_iff_eq

/-- Values that are equal compare alike with every value. -/
theorem cmp_congr {a a' b b' : Value} (ha : a == a') (hb : b == b') : a.cmp b = a'.cmp b' := by
  rw [Std.TransCmp.congr_left (beq_iff.1 ha), Std.TransCmp.congr_right (beq_iff.1 hb)]

/-- The order of values is total: reflexive, antisymmetric and transitive, strictly so when one
step is strict. Values that compare equal compare alike with every other value, so `==` is
an equivalence that the order respects. -/
theorem cmp_total_order :
    (∀ a : Value, a.cmp a = .eq) ∧
    (∀ a b : Value, a.cmp b = (b.cmp a).swap) ∧
    (∀ a b c : Value, (a.cmp b).isLE → (b.cmp c).isLE →
      (a.cmp c).isLE ∧ (a.cmp b = .lt ∨ b.cmp c = .lt → a.cmp c = .lt)) ∧
    (∀ a b c : Value, a.cmp b = .eq → a.cmp c = b.cmp c) ∧
    Equivalence (fun a b : Value => (a == b) = true) ∧
    (∀ a a' b b' : Value, a == a' → b == b' → compare a b = compare a' b') := by
  refine ⟨fun _ => Std.ReflCmp.compare_self, fun _ _ => Std.OrientedCmp.eq_swap, ?_,
    fun _ _ _ => Std.TransCmp.congr_left, ⟨?_, ?_, ?_⟩, fun _ _ _ _ => cmp_congr⟩
  · intro a b c hab hbc
    refine ⟨Std.TransCmp.isLE_trans hab hbc, ?_⟩
    rintro (hlt | hlt)
    · exact Std.TransCmp.lt_of_lt_of_isLE hlt hbc
    · exact Std.TransCmp.lt_of_isLE_of_lt hab hlt
  · exact fun _ => beq_iff.2 Std.ReflCmp.compare_self
  · exact fun h => beq_iff.2 (Std.OrientedCmp.eq_comm.1 (beq_iff.1 h))
  · exact fun hab hbc => beq_iff.2 (Std.TransCmp.eq_trans (beq_iff.1 hab) (beq_iff.1 hbc))

/-- Numbers of three widths in ascending order; the last two are equal. -/
theorem cmp_total_order_numbers :
    (float32 ⟨0xff800000⟩).cmp (int8 (-1)) = .lt ∧
      (int8 (-1)).cmp (float64 ⟨0xbff0000000000000⟩) = .eq ∧
      (float32 ⟨0xff800000⟩).cmp (float64 ⟨0xbff0000000000000⟩) = .lt := by
  have hab : (float32 ⟨0xff800000⟩).cmp (int8 (-1)) = .lt := by decide +kernel
  have hbc : (int8 (-1)).cmp (float64 ⟨0xbff0000000000000⟩) = .eq := by decide +kernel
  obtain ⟨-, -, htrans, -⟩ := cmp_total_order
  exact ⟨hab, hbc, (htrans _ _ _ (by rw [hab]; rfl) (by rw [hbc]; rfl)).2 (.inl hab)⟩

end Value

end MessagePack
