import MessagePack.Proofs.Wire.Truncation
import Mathlib.Data.List.Forall2

/-!
# Values one after the other

Decoding all of a byte string cuts it up: into the bytes of one value after the other, and a rest
that is empty or on which decoding fails. There is one such cut only, so any cut that is found is
the one that decoding makes. What stands before a byte string and comes out even only moves its cut.

* `Consecutive maxDepth bs o vs p`: from `o` up to `p`, decoding gives these values.
* `decodeAll_decomposes`: the cut of every byte string, and of one behind another.
-/

namespace MessagePack

variable {maxDepth : Nat} {bs : Bytes}

/-! ## Reading in the midst -/

theorem readAny_of_ok {v : Value} {n : Nat} (h : decode maxDepth bs = .ok (v, n)) (offset : Nat) :
    (readAny maxDepth).run (⟨bs, offset⟩ : Slice) = (.ok v, ⟨bs.drop n, offset + n⟩) := by
  obtain ⟨front, rest, rfl, rfl, hreads⟩ := reads_of_decode h
  rw [List.drop_left]
  exact hreads rest offset

theorem readAny_of_error {e : DecodeError} (h : decode maxDepth bs = .error e) (offset : Nat) :
    ((readAny maxDepth).run (⟨bs, offset⟩ : Slice)).1 = .error (e.shift offset) := by
  cases outcome_readValue (maxDepth + 1) bs with
  | reads hbs hreads =>
    subst hbs
    cases (decode_of_reads hreads _).symm.trans h
  | fails hbs hfails _ =>
    subst hbs
    cases (decode_of_fails hfails _).symm.trans h
    exact hfails _ offset
  | starves _ hstarves _ =>
    cases (decode_of_starves hstarves).symm.trans h
    exact hstarves offset

/-- A value takes as many bytes as there are at most, and one at least. -/
theorem bounds_of_decode {v : Value} {n : Nat} (h : decode maxDepth bs = .ok (v, n)) :
    0 < n ∧ n ≤ bs.length := by
  obtain ⟨front, rest, rfl, rfl, hreads⟩ := reads_of_decode h
  constructor
  · refine List.length_pos_iff.2 ?_
    rintro rfl
    cases decode_of_reads hreads []
  · rw [List.length_append]
    exact Nat.le_add_right _ _

/-! ## Consecutive values -/

/-- Decoding what is left at `o`, at the end of the value there, and so on, gives the values in
turn; `p` is where the last one ends. -/
inductive Consecutive (maxDepth : Nat) (bs : Bytes) : (o : Nat) → List Value → (p : Nat) → Prop
  | nil {o : Nat} : Consecutive maxDepth bs o [] o
  | cons {o n p : Nat} {v : Value} {vs : List Value}
      (h : decode maxDepth (bs.drop o) = .ok (v, n)) (hrest : Consecutive maxDepth bs (o + n) vs p) :
      Consecutive maxDepth bs o (v :: vs) p

namespace Consecutive

variable {o p q : Nat} {vs ws : List Value}

theorem snoc {v : Value} {n : Nat} (h : Consecutive maxDepth bs o vs p)
    (hv : decode maxDepth (bs.drop p) = .ok (v, n)) :
    Consecutive maxDepth bs o (vs ++ [v]) (p + n) := by
  induction h with
  | nil => exact .cons hv .nil
  | cons hfirst _ ih => exact .cons hfirst (ih hv)

/-- The first of the values end where the others begin. -/
theorem of_append (h : Consecutive maxDepth bs o (vs ++ ws) q) :
    ∃ p, Consecutive maxDepth bs o vs p ∧ Consecutive maxDepth bs p ws q := by
  induction vs generalizing o with
  | nil => exact ⟨o, .nil, h⟩
  | cons v vs ih =>
    cases h with
    | cons hv hrest =>
      obtain ⟨p, hvs, hws⟩ := ih hrest
      exact ⟨p, .cons hv hvs, hws⟩

/-- Values stay where they are when bytes come. -/
theorem append (h : Consecutive maxDepth bs o vs p) (more : Bytes) :
    Consecutive maxDepth (bs ++ more) o vs p := by
  induction h with
  | nil => exact .nil
  | @cons o n p v vs h _ ih =>
    obtain ⟨hpos, hle⟩ := bounds_of_decode h
    rw [List.length_drop] at hle
    have hsettled : settledAt? (decode maxDepth (bs.drop o)) = some n := by rw [h]; rfl
    refine .cons ?_ ih
    rw [List.drop_append_of_le_length (by omega), decode_append hsettled, h]

/-- All values from a place on come before the place where decoding fails. -/
theorem prefix_of_stuck {e : DecodeError} (h : Consecutive maxDepth bs o vs p)
    (hws : Consecutive maxDepth bs o ws q) (hstuck : decode maxDepth (bs.drop q) = .error e) :
    ∃ rest, vs ++ rest = ws ∧ Consecutive maxDepth bs p rest q := by
  induction h generalizing ws with
  | nil => exact ⟨ws, rfl, hws⟩
  | cons hv _ ih =>
    cases hws with
    | nil => cases hstuck.symm.trans hv
    | cons hw hws =>
      cases hv.symm.trans hw
      obtain ⟨rest, rfl, hrest⟩ := ih hws
      exact ⟨rest, rfl, hrest⟩

/-- Decoding fails in one place only. -/
theorem eq_of_stuck {e e' : DecodeError} (h : Consecutive maxDepth bs o vs p)
    (hp : decode maxDepth (bs.drop p) = .error e) (h' : Consecutive maxDepth bs o ws q)
    (hq : decode maxDepth (bs.drop q) = .error e') : vs = ws ∧ p = q := by
  obtain ⟨rest, rfl, hrest⟩ := h.prefix_of_stuck h' hq
  cases hrest with
  | nil => exact ⟨(List.append_nil vs).symm, rfl⟩
  | cons hv _ => cases hp.symm.trans hv

end Consecutive

/-! ## All values -/

/-- Values that stand one after the other are all that there are: decoding what is left fails, for
good or because nothing is left. -/
structure DecodedSequence.Exhausts (all : DecodedSequence) (maxDepth : Nat) (bs : Bytes)
    (failure : DecodeError) : Prop where
  fails : decode maxDepth (bs.drop all.stop) = .error failure
  error_eq : all.error = some (failure.shift all.stop) ∨ all.error = none ∧ all.stop = bs.length

/-- An error that is not for lack of bytes is reported. -/
theorem DecodedSequence.Exhausts.error_of_ne {all : DecodedSequence} {failure : DecodeError}
    (h : all.Exhausts maxDepth bs failure) (hne : ∀ o, failure ≠ .endOfBuffer o) :
    all.error = some (failure.shift all.stop) := by
  refine h.error_eq.resolve_right ?_
  rintro ⟨-, hstop⟩
  have hfails := h.fails
  rw [hstop, List.drop_length] at hfails
  exact hne 0 (Except.error.inj hfails).symm

/-- Nothing is left at the end. -/
theorem exhausts_of_nil {stop : Nat} (values : List Value) (h : bs.drop stop = [])
    (hle : stop ≤ bs.length) :
    (⟨values, stop, none⟩ : DecodedSequence).Exhausts maxDepth bs (.endOfBuffer 0) := by
  refine ⟨?_, .inr ⟨rfl, Nat.le_antisymm hle (List.drop_eq_nil_iff.1 h)⟩⟩
  show decode maxDepth (bs.drop stop) = .error (.endOfBuffer 0)
  rw [h]
  rfl

theorem consecutive_decodeSequence (maxDepth : Nat) {turns offset : Nat} (seen : List Value)
    (hle : offset ≤ bs.length) (hturns : bs.length ≤ offset + turns) :
    ∃ vs stop error failure,
      decodeSequence maxDepth turns ⟨bs.drop offset, offset⟩ seen =
        ⟨seen.reverse ++ vs, stop, error⟩ ∧
      Consecutive maxDepth bs offset vs stop ∧
      (⟨seen.reverse ++ vs, stop, error⟩ : DecodedSequence).Exhausts maxDepth bs failure := by
  -- By the turns: a value takes a byte at least, so they last as long as bytes are left.
  induction turns generalizing offset seen with
  | zero =>
    have hnil : bs.drop offset = [] := List.drop_eq_nil_iff.2 hturns
    refine ⟨[], offset, none, _, ?_, .nil, exhausts_of_nil _ hnil hle⟩
    rw [decodeSequence, List.append_nil]
  | succ turns ih =>
    by_cases hnil : bs.drop offset = []
    · refine ⟨[], offset, none, _, ?_, .nil, exhausts_of_nil _ hnil hle⟩
      rw [decodeSequence, hnil, List.append_nil]
      rfl
    · rw [decodeSequence, if_neg (by rwa [List.isEmpty_iff])]
      rcases hdecode : decode maxDepth (bs.drop offset) with failure | ⟨v, n⟩
      · have herror := readAny_of_error hdecode offset
        split
        case h_1 hrun =>
          rw [hrun] at herror
          cases herror
        case h_2 e _ hrun =>
          rw [hrun] at herror
          cases herror
          exact ⟨[], offset, _, failure, by rw [List.append_nil], .nil, hdecode, .inl rfl⟩
      · obtain ⟨hpos, hn⟩ := bounds_of_decode hdecode
        rw [List.length_drop] at hn
        rw [readAny_of_ok hdecode, List.drop_drop]
        obtain ⟨vs, stop, error, failure, hsequence, hvs, hexhausts⟩ :=
          @ih (offset + n) (v :: seen) (by omega) (by omega)
        rw [List.reverse_cons, List.append_assoc] at hsequence hexhausts
        exact ⟨v :: vs, stop, error, failure, hsequence, .cons hdecode hvs, hexhausts⟩

/-- Where one value takes up all of a byte string, it is the only one. -/
theorem decodeAll_of_decode {v : Value} (h : decode maxDepth bs = .ok (v, bs.length)) :
    decodeAll maxDepth bs = ⟨[v], bs.length, none⟩ := by
  obtain ⟨hpos, -⟩ := bounds_of_decode h
  obtain ⟨turns, hturns⟩ := Nat.exists_eq_succ_of_ne_zero (Nat.ne_of_gt hpos)
  have hne : ¬ bs.isEmpty := by
    rw [List.isEmpty_iff_length_eq_zero]
    exact Nat.ne_of_gt hpos
  have hread := readAny_of_ok h 0
  rw [List.drop_length, Nat.zero_add] at hread
  show decodeSequence maxDepth bs.length ⟨bs, 0⟩ [] = _
  rw [hturns, decodeSequence, if_neg hne, hread, ← hturns]
  -- Nothing is left, whether or not turns are.
  cases turns <;> rfl

/-- The values of a byte string come one after the other up to where decoding fails or nothing is
left. -/
theorem consecutive_decodeAll (maxDepth : Nat) (bs : Bytes) :
    Consecutive maxDepth bs 0 (decodeAll maxDepth bs).values (decodeAll maxDepth bs).stop ∧
      ∃ failure, (decodeAll maxDepth bs).Exhausts maxDepth bs failure := by
  obtain ⟨vs, stop, error, failure, hsequence, hvs, hexhausts⟩ :=
    consecutive_decodeSequence maxDepth [] bs.length.zero_le
      (Nat.le_of_eq (Nat.zero_add _).symm)
  have hall : decodeAll maxDepth bs = ⟨vs, stop, error⟩ := hsequence
  rw [hall]
  exact ⟨hvs, failure, hexhausts⟩

/-! ## Consecutive values -/

namespace Consecutive

variable {o p q : Nat} {vs ws : List Value}

/-- Values end among the bytes that they are decoded from. -/
theorem stop_le (h : Consecutive maxDepth bs o vs p) (hle : o ≤ bs.length) : p ≤ bs.length := by
  induction h with
  | nil => exact hle
  | cons hv _ ih =>
    obtain ⟨-, hn⟩ := bounds_of_decode hv
    rw [List.length_drop] at hn
    exact ih (by omega)

/-- Each value has bytes of its own, and alone these decode to it. -/
theorem exists_segments (h : Consecutive maxDepth bs o vs p) :
    ∃ segments : List Bytes, segments.flatten ++ bs.drop p = bs.drop o ∧
      List.Forall₂ (fun segment v =>
        segment ≠ [] ∧ decode maxDepth segment = .ok (v, segment.length)) segments vs := by
  induction h with
  | nil => exact ⟨[], rfl, .nil⟩
  | @cons o n p v vs hv _ ih =>
    obtain ⟨segments, hflatten, hsegments⟩ := ih
    obtain ⟨hpos, -⟩ := bounds_of_decode hv
    obtain ⟨segment, rest, hdrop, rfl, hreads⟩ := reads_of_decode hv
    have hrest : bs.drop (o + segment.length) = rest := by
      rw [← List.drop_drop, ← hdrop, List.drop_left]
    have halone : decode maxDepth segment = .ok (v, segment.length) := by
      simpa using decode_of_reads hreads []
    refine ⟨segment :: segments, ?_, .cons ⟨List.length_pos_iff.1 hpos, halone⟩ hsegments⟩
    rw [List.flatten_cons, List.append_assoc, hflatten, hrest, hdrop]

/-- Values stay in turn behind other bytes. -/
theorem behind (h : Consecutive maxDepth bs o vs p) (before : Bytes) :
    Consecutive maxDepth (before ++ bs) (before.length + o) vs (before.length + p) := by
  induction h with
  | nil => exact .nil
  | cons hv _ ih => exact .cons (by rwa [List.drop_length_add_append]) (by rwa [Nat.add_assoc])

theorem trans (h : Consecutive maxDepth bs o vs p) (h' : Consecutive maxDepth bs p ws q) :
    Consecutive maxDepth bs o (vs ++ ws) q := by
  induction h with
  | nil => exact h'
  | cons hv _ ih => exact .cons hv (ih h')

end Consecutive

/-! ## All values -/

section

variable {o p turns : Nat} {vs : List Value} {failure : DecodeError}

/-- With turns enough, decoding gives the values up to where it fails. An error is reported unless
nothing is left there. -/
theorem decodeSequence_of_stuck (hvs : Consecutive maxDepth bs o vs p)
    (hstuck : decode maxDepth (bs.drop p) = .error failure) (hle : o ≤ bs.length)
    (hturns : bs.length ≤ o + turns) (seen : List Value) :
    decodeSequence maxDepth turns ⟨bs.drop o, o⟩ seen =
      ⟨seen.reverse ++ vs, p, if p = bs.length then none else some (failure.shift p)⟩ := by
  induction hvs generalizing turns seen with
  | @nil o =>
    by_cases hend : o = bs.length
    · subst hend
      cases turns <;> simp [decodeSequence]
    · obtain ⟨turns, rfl⟩ : ∃ n, turns = n + 1 := ⟨turns - 1, by omega⟩
      have hne : bs.drop o ≠ [] := by
        rw [Ne, List.drop_eq_nil_iff]
        omega
      have herror := readAny_of_error hstuck o
      rw [decodeSequence, if_neg (by simpa using hne), if_neg hend, List.append_nil]
      split
      case h_1 hrun => simp [hrun] at herror
      case h_2 hrun =>
        rw [hrun] at herror
        cases herror
        rfl
  | @cons o n p v vs hv _ ih =>
    obtain ⟨hpos, hn⟩ := bounds_of_decode hv
    rw [List.length_drop] at hn
    obtain ⟨turns, rfl⟩ : ∃ n, turns = n + 1 := ⟨turns - 1, by omega⟩
    have hne : bs.drop o ≠ [] := by
      rw [Ne, List.drop_eq_nil_iff]
      omega
    rw [decodeSequence, if_neg (by simpa using hne), readAny_of_ok hv, List.drop_drop]
    simp only
    rw [ih hstuck (by omega) (by omega), List.reverse_cons, List.append_assoc]
    rfl

/-- Values in turn up to where decoding fails are all there are. -/
theorem decodeAll_of_stuck (hvs : Consecutive maxDepth bs 0 vs p)
    (hstuck : decode maxDepth (bs.drop p) = .error failure) :
    decodeAll maxDepth bs =
      ⟨vs, p, if p = bs.length then none else some (failure.shift p)⟩ :=
  decodeSequence_of_stuck hvs hstuck (Nat.zero_le _) (Nat.le_of_eq (Nat.zero_add _).symm) []

end

/-- Where decoding stops, and why. -/
theorem error_decodeAll (maxDepth : Nat) (bs : Bytes) :
    let all := decodeAll maxDepth bs
    ∃ failure, decode maxDepth (bs.drop all.stop) = .error failure ∧
      all.error = if all.stop = bs.length then none else some (failure.shift all.stop) := by
  intro all
  obtain ⟨hvs, failure, hexhausts⟩ := consecutive_decodeAll maxDepth bs
  exact ⟨failure, hexhausts.fails,
    congrArg DecodedSequence.error (decodeAll_of_stuck hvs hexhausts.fails)⟩

/-- Behind a byte string that comes out even, decoding goes on as from the beginning. -/
theorem decodeAll_append (hstop : (decodeAll maxDepth bs).stop = bs.length) (more : Bytes) :
    decodeAll maxDepth (bs ++ more) =
      ⟨(decodeAll maxDepth bs).values ++ (decodeAll maxDepth more).values,
        bs.length + (decodeAll maxDepth more).stop,
        (decodeAll maxDepth more).error.map (DecodeError.shift bs.length)⟩ := by
  obtain ⟨hvs, -⟩ := consecutive_decodeAll maxDepth bs
  obtain ⟨hws, -⟩ := consecutive_decodeAll maxDepth more
  obtain ⟨failure, hfails, herror⟩ := error_decodeAll maxDepth more
  rw [hstop] at hvs
  have hboth := (hvs.append more).trans (hws.behind bs)
  have hstuck : decode maxDepth ((bs ++ more).drop (bs.length + (decodeAll maxDepth more).stop)) =
      .error failure := by
    rwa [List.drop_length_add_append]
  rw [decodeAll_of_stuck hboth hstuck, herror]
  by_cases hend : (decodeAll maxDepth more).stop = more.length
  · simp [hend]
  · simp [hend, DecodeError.shift_shift, Nat.add_comm]

/-- Decoding all of a byte string cuts it into consecutive parts that decode to the values, each to
its last byte, and a rest. More turns than there are bytes change nothing. No error is reported just
when no rest is left, and otherwise it is that of decoding the rest, counted from the beginning of
the byte string. When no error is reported and more bytes follow, their values, their end and their
error follow. -/
theorem decodeAll_decomposes (maxDepth : Nat) (bs : Bytes) :
    let all := decodeAll maxDepth bs
    (∀ turns, bs.length ≤ turns →
      decodeSequence maxDepth turns (Slice.ofBytes bs) [] = all) ∧
    all.stop ≤ bs.length ∧
    (∃ segments : List Bytes, segments.flatten = bs.take all.stop ∧
      List.Forall₂ (fun segment v =>
        segment ≠ [] ∧ decode maxDepth segment = .ok (v, segment.length)) segments all.values) ∧
    (all.error = none ↔ all.stop = bs.length) ∧
    (all.stop < bs.length → ∃ failure,
      decode maxDepth (bs.drop all.stop) = .error failure ∧
        all.error = some (failure.shift all.stop)) ∧
    (all.error = none → ∀ more : Bytes,
      decodeAll maxDepth (bs ++ more) =
        ⟨all.values ++ (decodeAll maxDepth more).values,
          bs.length + (decodeAll maxDepth more).stop,
          (decodeAll maxDepth more).error.map (DecodeError.shift bs.length)⟩) := by
  intro all
  obtain ⟨hvs, -⟩ := consecutive_decodeAll maxDepth bs
  obtain ⟨failure, hfails, herror⟩ := error_decodeAll maxDepth bs
  have hend : all.error = none ↔ all.stop = bs.length := by
    simp [all, herror]
  refine ⟨fun turns hturns => ?_, hvs.stop_le (Nat.zero_le _), ?_, hend, fun hlt => ?_,
    fun hnone => decodeAll_append (hend.1 hnone)⟩
  · have henough : bs.length ≤ 0 + turns := by omega
    exact (decodeSequence_of_stuck hvs hfails (Nat.zero_le _) henough []).trans
      (decodeAll_of_stuck hvs hfails).symm
  · obtain ⟨segments, hflatten, hsegments⟩ := hvs.exists_segments
    refine ⟨segments, ?_, hsegments⟩
    rw [List.drop_zero] at hflatten
    exact List.append_cancel_right (hflatten.trans (List.take_append_drop all.stop bs).symm)
  · refine ⟨failure, hfails, ?_⟩
    rw [if_neg (Nat.ne_of_lt hlt)] at herror
    exact herror

/-- Two values that come out even, and behind them a value and a truncated one. -/
theorem decodeAll_decomposes_truncated :
    decodeAll 1 [0x01, 0x91, 0xc0] = ⟨[.uint8 1, .array [.nil]], 3, none⟩ ∧
      decodeAll 1 ([0x01, 0x91, 0xc0] ++ [0xa1, 0x78, 0x92, 0xcd, 0x01]) =
        ⟨[.uint8 1, .array [.nil], .string [0x78]], 5, some (.endOfBuffer 7)⟩ := by
  have hfirst : decodeAll 1 [0x01, 0x91, 0xc0] = ⟨[.uint8 1, .array [.nil]], 3, none⟩ := rfl
  have hlater : decodeAll 1 [0xa1, 0x78, 0x92, 0xcd, 0x01] =
      ⟨[.string [0x78]], 2, some (.endOfBuffer 4)⟩ := rfl
  obtain ⟨-, -, -, -, -, hmore⟩ := decodeAll_decomposes 1 [0x01, 0x91, 0xc0]
  rw [hfirst] at hmore
  refine ⟨hfirst, ?_⟩
  rw [hmore rfl, hlater]
  rfl

end MessagePack
