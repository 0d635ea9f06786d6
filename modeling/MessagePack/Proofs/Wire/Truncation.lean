import MessagePack.Proofs.Wire.Outcome

/-!
# Decoding the first bytes of a byte string

What decoding comes to is settled by some first bytes of a byte string: those of the value, those up
to the byte that begins no value, or those before the value that is nested too deep. With more bytes
the answer is the same, and with fewer it is that bytes are missing.

* `settledAt?`: the number of bytes that settle an answer.
* `decode_take`: what decoding the first `k` bytes comes to, for every `k`.
-/

namespace MessagePack

/-- The number of bytes that settle an answer; one that is for lack of bytes is not settled. -/
def settledAt? : Except DecodeError (Value × Nat) → Option Nat
  | .ok (_, n) => some n
  | .error (.endOfBuffer _) => none
  | .error (.invalidByte _ o) => some (o + 1)
  | .error (.depthExceeded o) => some o

/-- Decoding finds that bytes are missing. -/
def RunsOut (maxDepth : Nat) (bs : Bytes) : Prop :=
  ∃ o, decode maxDepth bs = .error (.endOfBuffer o)

variable {maxDepth : Nat} {bs : Bytes}

theorem runsOut_of_unsettled (h : settledAt? (decode maxDepth bs) = none) : RunsOut maxDepth bs := by
  unfold settledAt? at h
  split at h
  case h_2 o heq => exact ⟨o, heq⟩
  all_goals cases h

theorem decode_of_error {e : DecodeError}
    (h : ((readAny maxDepth).run (Slice.ofBytes bs)).1 = .error e) :
    decode maxDepth bs = .error e := by
  unfold decode
  split
  case h_1 heq =>
    rw [heq] at h
    cases h
  case h_2 heq =>
    rw [heq] at h
    exact congrArg Except.error (Except.error.inj h)

theorem decode_of_fails {e : DecodeError} (h : Fails (readAny maxDepth) bs e) (rest : Bytes) :
    decode maxDepth (bs ++ rest) = .error e := by
  rw [← DecodeError.shift_zero e]
  exact decode_of_error (h rest 0)

theorem decode_of_starves {k : Nat} (h : Starves (readAny maxDepth) bs k) :
    decode maxDepth bs = .error (.endOfBuffer k) := decode_of_error (h 0)

/-- The value that decoding gives is read from the bytes that it takes. -/
theorem reads_of_decode {v : Value} {n : Nat} (h : decode maxDepth bs = .ok (v, n)) :
    ∃ front rest, front ++ rest = bs ∧ front.length = n ∧ Reads (readAny maxDepth) front v := by
  cases outcome_readValue (maxDepth + 1) bs with
  | reads hbs hreads =>
    subst hbs
    cases (decode_of_reads hreads _).symm.trans h
    exact ⟨_, _, rfl, rfl, hreads⟩
  | fails hbs hfails _ =>
    subst hbs
    cases (decode_of_fails hfails _).symm.trans h
  | starves _ hstarves _ => cases (decode_of_starves hstarves).symm.trans h

/-! ## Settled answers -/

/-- The bytes that settle an answer are there, and whatever comes after them the answer stays. -/
theorem decode_of_settled {n : Nat} (h : settledAt? (decode maxDepth bs) = some n) :
    ∃ front rest, front ++ rest = bs ∧ front.length = n ∧
      ∀ more, decode maxDepth (front ++ more) = decode maxDepth bs := by
  cases outcome_readValue (maxDepth + 1) bs with
  | @reads front rest v hbs hreads =>
    have hdecode := decode_of_reads hreads
    subst hbs
    rw [hdecode] at h
    cases h
    exact ⟨front, rest, rfl, rfl, fun more => (hdecode more).trans (hdecode rest).symm⟩
  | @fails front rest e hbs hfails hshows =>
    have hdecode := decode_of_fails hfails
    subst hbs
    rw [hdecode] at h
    refine ⟨front, rest, rfl, ?_, fun more => (hdecode more).trans (hdecode rest).symm⟩
    cases e with
    | endOfBuffer o => cases h
    | invalidByte b o =>
      obtain ⟨-, before, rfl, rfl⟩ := hshows
      cases h
      exact List.length_append
    | depthExceeded o =>
      cases h
      exact hshows
  | starves _ hstarves _ =>
    rw [decode_of_starves hstarves] at h
    cases h

theorem le_length_of_settled {n : Nat} (h : settledAt? (decode maxDepth bs) = some n) :
    n ≤ bs.length := by
  obtain ⟨front, rest, rfl, rfl, -⟩ := decode_of_settled h
  rw [List.length_append]
  exact Nat.le_add_right _ _

/-- A settled answer stays when bytes come. -/
theorem decode_append {n : Nat} (h : settledAt? (decode maxDepth bs) = some n) (more : Bytes) :
    decode maxDepth (bs ++ more) = decode maxDepth bs := by
  obtain ⟨front, rest, rfl, -, hdecode⟩ := decode_of_settled h
  rw [List.append_assoc, hdecode]

theorem decode_append_of_error {e : DecodeError} (h : decode maxDepth bs = .error e)
    (hne : ∀ o, e ≠ .endOfBuffer o) (more : Bytes) : decode maxDepth (bs ++ more) = .error e := by
  cases hsettled : settledAt? (decode maxDepth bs) with
  | none =>
    obtain ⟨o, ho⟩ := runsOut_of_unsettled hsettled
    exact absurd (Except.error.inj (h.symm.trans ho)) (hne o)
  | some n => rw [decode_append hsettled, h]

/-- The byte at which decoding fails is there, and is the one that begins no value. -/
theorem byte_of_invalidByte {b : UInt8} {o : Nat}
    (h : decode maxDepth bs = .error (.invalidByte b o)) : b = 0xc1 ∧ bs[o]? = some 0xc1 := by
  cases outcome_readValue (maxDepth + 1) bs with
  | reads hbs hreads =>
    subst hbs
    cases (decode_of_reads hreads _).symm.trans h
  | fails hbs hfails hshows =>
    subst hbs
    cases (decode_of_fails hfails _).symm.trans h
    obtain ⟨rfl, before, rfl, rfl⟩ := hshows
    simp
  | starves _ hstarves _ => cases (decode_of_starves hstarves).symm.trans h

/-! ## Answers for lack of bytes -/

/-- When bytes are missing, they are missing on all beginnings, and found missing no later. -/
theorem decode_of_endOfBuffer {o : Nat} (h : decode maxDepth bs = .error (.endOfBuffer o)) :
    o ≤ bs.length ∧
      ∀ front, front <+: bs → ∃ o' ≤ o, decode maxDepth front = .error (.endOfBuffer o') := by
  cases outcome_readValue (maxDepth + 1) bs with
  | reads hbs hreads =>
    subst hbs
    cases (decode_of_reads hreads _).symm.trans h
  | fails hbs hfails hshows =>
    subst hbs
    cases (decode_of_fails hfails _).symm.trans h
    cases hshows
  | starves hk hstarves hfront =>
    cases (decode_of_starves hstarves).symm.trans h
    refine ⟨hk, fun front hprefix => ?_⟩
    obtain ⟨j, hj, hstarves⟩ := hfront front hprefix
    exact ⟨j, hj, decode_of_starves hstarves⟩

/-! ## Beginnings -/

/-- With the bytes that settle an answer it is the same, and with fewer it is that bytes are
missing. -/
theorem decode_take_of_settled {n : Nat} (h : settledAt? (decode maxDepth bs) = some n) (k : Nat) :
    (n ≤ k → decode maxDepth (bs.take k) = decode maxDepth bs) ∧
      (k < n → RunsOut maxDepth (bs.take k)) := by
  refine ⟨fun hle => ?_, fun hlt => ?_⟩
  · obtain ⟨front, rest, hbs, rfl, hdecode⟩ := decode_of_settled h
    rw [← hdecode, ← hbs, List.take_append, List.take_of_length_le hle]
  · refine runsOut_of_unsettled (Option.eq_none_iff_forall_ne_some.2 fun j hj => ?_)
    -- A beginning that settles the answer would settle it for all the bytes.
    have hsame := decode_append hj (bs.drop k)
    rw [List.take_append_drop] at hsame
    rw [← hsame, h] at hj
    cases hj
    have hle := le_length_of_settled (hsame ▸ h)
    rw [List.length_take] at hle
    omega

/-- The answer for the first `k` bytes is that for all of them as soon as the bytes are there that
it is about, and that bytes are missing before. Among answers for lack of bytes, the place only
moves on as `k` grows. -/
theorem decode_take (maxDepth : Nat) (bs : Bytes) :
    (∀ v n, decode maxDepth bs = .ok (v, n) → n ≤ bs.length ∧ ∀ k,
      (n ≤ k → decode maxDepth (bs.take k) = .ok (v, n)) ∧
      (k < n → RunsOut maxDepth (bs.take k))) ∧
    (∀ b o, decode maxDepth bs = .error (.invalidByte b o) → b = 0xc1 ∧ bs[o]? = some 0xc1 ∧ ∀ k,
      (o < k → decode maxDepth (bs.take k) = .error (.invalidByte b o)) ∧
      (k ≤ o → RunsOut maxDepth (bs.take k))) ∧
    (∀ o, decode maxDepth bs = .error (.depthExceeded o) → o ≤ bs.length ∧ ∀ k,
      (o ≤ k → decode maxDepth (bs.take k) = .error (.depthExceeded o)) ∧
      (k < o → RunsOut maxDepth (bs.take k))) ∧
    (∀ o, decode maxDepth bs = .error (.endOfBuffer o) → ∀ k,
      ∃ o' ≤ o, decode maxDepth (bs.take k) = .error (.endOfBuffer o')) ∧
    (∀ k o, decode maxDepth (bs.take k) = .error (.endOfBuffer o) → o ≤ k) ∧
    (∀ j k o o', j ≤ k → decode maxDepth (bs.take j) = .error (.endOfBuffer o) →
      decode maxDepth (bs.take k) = .error (.endOfBuffer o') → o ≤ o') := by
  refine ⟨fun v n h => ?_, fun b o h => ?_, fun o h => ?_, fun o h k => ?_, fun k o h => ?_,
    fun j k o o' hjk hj hk => ?_⟩
  · have hsettled : settledAt? (decode maxDepth bs) = some n := by rw [h]; rfl
    rw [← h]
    exact ⟨le_length_of_settled hsettled, decode_take_of_settled hsettled⟩
  · have hsettled : settledAt? (decode maxDepth bs) = some (o + 1) := by rw [h]; rfl
    obtain ⟨hb, hbyte⟩ := byte_of_invalidByte h
    rw [← h]
    refine ⟨hb, hbyte, fun k => ?_⟩
    obtain ⟨hsame, hout⟩ := decode_take_of_settled hsettled k
    exact ⟨hsame, fun hle => hout (Nat.lt_succ_of_le hle)⟩
  · have hsettled : settledAt? (decode maxDepth bs) = some o := by rw [h]; rfl
    rw [← h]
    exact ⟨le_length_of_settled hsettled, decode_take_of_settled hsettled⟩
  · exact (decode_of_endOfBuffer h).2 _ (List.take_prefix k bs)
  · exact Nat.le_trans (decode_of_endOfBuffer h).1 (List.length_take_le k bs)
  · obtain ⟨i, hi, hdecode⟩ := (decode_of_endOfBuffer hk).2 _ (List.take_prefix_take_left hjk)
    cases hj.symm.trans hdecode
    exact hi

/-- An array whose second item begins with a byte that begins no value, and a byte after it. -/
theorem decode_take_invalid :
    decode 1 [0x92, 0xcd, 0x01, 0x00, 0xc1, 0xc0] = .error (.invalidByte 0xc1 4) ∧
      decode 1 ([0x92, 0xcd, 0x01, 0x00, 0xc1, 0xc0].take 5) = .error (.invalidByte 0xc1 4) ∧
      RunsOut 1 ([0x92, 0xcd, 0x01, 0x00, 0xc1, 0xc0].take 4) := by
  have hinvalid : decode 1 [0x92, 0xcd, 0x01, 0x00, 0xc1, 0xc0] = .error (.invalidByte 0xc1 4) := rfl
  obtain ⟨-, hcut, -⟩ := decode_take 1 [0x92, 0xcd, 0x01, 0x00, 0xc1, 0xc0]
  obtain ⟨-, -, hfirst⟩ := hcut _ _ hinvalid
  exact ⟨hinvalid, (hfirst 5).1 (by decide), (hfirst 4).2 (by decide)⟩

end MessagePack
