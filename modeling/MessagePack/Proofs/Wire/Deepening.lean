import MessagePack.Proofs.Wire.Truncation

/-!
# More levels

Decoders with more and with fewer levels take the same course up to a value that is nested too deep
for the one with fewer. There it fails, while the other may go on, and whatever it comes to then
lies no earlier.

* `Deepens x y`: where two steps differ, the first finds a value nested too deep, and no later.
* `decode_of_deepens`: decoding a byte string under a greater bound.
-/

namespace MessagePack

open Reading

/-- The result is about the offset or what comes after it. -/
def Past {α : Type} (o : Nat) : Except DecodeError α × Slice → Prop
  | (.ok _, r) => o ≤ r.offset
  | (.error e, _) => o ≤ e.offset

theorem Past.mono {α : Type} {o o' : Nat} {result : Except DecodeError α × Slice} (hle : o ≤ o')
    (h : Past o' result) : Past o result := by
  obtain ⟨_ | _, _⟩ := result <;> exact Nat.le_trans hle h

/-- No step goes back. -/
theorem past_of_outcome {α : Type} {x : Reading Slice α} (hx : ∀ bs, Outcome x bs) (r : Slice) :
    Past r.offset (x r) := by
  have herror : ∀ e : DecodeError, (x r).1 = .error e → r.offset ≤ e.offset →
      Past r.offset (x r) := by
    intro e h hle
    rcases hr : x r with ⟨_ | _, _⟩ <;> rw [hr] at h <;> cases h
    exact hle
  obtain ⟨bs, offset⟩ := r
  cases hx bs with
  | @reads front rest a hbs h =>
    subst hbs
    rw [h rest offset]
    exact Nat.le_add_right _ _
  | @fails front rest e hbs h _ =>
    subst hbs
    refine herror _ (h rest offset) ?_
    cases e <;> exact Nat.le_add_left _ _
  | starves _ h _ => exact herror _ (h offset) (Nat.le_add_left _ _)

/-- Where the steps differ, the first finds a value nested too deep, and the second comes to nothing
before that value. -/
def Deepens {α : Type} (x y : Reading Slice α) : Prop :=
  ∀ r, x r = y r ∨ ∃ o, (x r).1 = .error (.depthExceeded o) ∧ Past o (y r)

namespace Deepens

variable {α β : Type} {x y : Reading Slice α} {f g : α → Reading Slice β}

protected theorem refl (x : Reading Slice α) : Deepens x x := fun _ => .inl rfl

protected theorem bind (h : Deepens x y) (hf : ∀ a, Deepens (f a) (g a))
    (hg : ∀ a bs, Outcome (g a) bs) : Deepens (x >>= f) (y >>= g) := by
  intro r
  rcases h r with hr | ⟨o, ho, hpast⟩
  · rw [bind_def, bind_def, hr]
    rcases y r with ⟨e | a, r'⟩
    · exact .inl rfl
    · exact hf a r'
  · refine .inr ⟨o, bind_fst_error ho, ?_⟩
    rw [bind_def]
    rcases hy : y r with ⟨e | a, r'⟩ <;> rw [hy] at hpast
    · exact hpast
    · exact (past_of_outcome (hg a) r').mono hpast

protected theorem map (h : Deepens x y) (g : α → β) :
    Deepens (x >>= fun a => pure (g a)) (y >>= fun a => pure (g a)) :=
  h.bind (fun a => .refl (pure (g a))) fun a => outcome_pure (g a)

end Deepens

section

variable {item item' : Reading Slice Value} (h : Deepens item item')
  (hitem : ∀ bs, Outcome item' bs)

include h hitem

theorem deepens_readItems (n : Nat) (seen : List Value) :
    Deepens (readItems item n seen) (readItems item' n seen) := by
  induction n generalizing seen with
  | zero => exact .refl _
  | succ n ih =>
    rw [readItems_succ, readItems_succ]
    exact h.bind (fun v => ih (v :: seen)) fun v => outcome_readItems hitem n _

theorem deepens_readEntries (n : Nat) (entries : List (Value × Value)) :
    Deepens (readEntries item n entries) (readEntries item' n entries) := by
  induction n generalizing entries with
  | zero => exact .refl _
  | succ n ih =>
    rw [readEntries_succ, readEntries_succ]
    refine h.bind (fun k => h.bind (fun v => ih _) fun v => ?_) fun k => ?_
    · exact outcome_readEntries hitem n _
    · exact outcome_bind hitem fun v => outcome_readEntries hitem n _

theorem deepens_readBody (header : Header) :
    Deepens (readBody item header) (readBody item' header) := by
  cases header with
  | array length => exact (deepens_readItems h hitem length []).map _
  | object length => exact (deepens_readEntries h hitem length []).map _
  | _ => exact .refl _

end

/-- More levels change nothing but where a value was nested too deep. -/
theorem deepens_readValue {levels levels' : Nat} (hle : levels ≤ levels') :
    Deepens (readValue levels) (readValue levels') := by
  induction levels generalizing levels' with
  | zero => exact fun r => .inr ⟨r.offset, rfl, past_of_outcome (outcome_readValue levels') r⟩
  | succ levels ih =>
    obtain ⟨levels', rfl⟩ := Nat.exists_eq_succ_of_ne_zero (Nat.ne_zero_of_lt hle)
    have h := ih (Nat.le_of_succ_le_succ hle)
    rw [readValue_succ, readValue_succ]
    exact (Deepens.refl readHeader).bind (deepens_readBody h (outcome_readValue levels'))
      (outcome_readBody (outcome_readValue levels'))

/-! ## Byte strings -/

/-- A greater bound gives the same answer, or the error was for depth and lay no later. -/
theorem decode_of_deepens {maxDepth maxDepth' : Nat} (hle : maxDepth ≤ maxDepth') (bs : Bytes) :
    decode maxDepth' bs = decode maxDepth bs ∨
      ∃ o, decode maxDepth bs = .error (.depthExceeded o) ∧
        ∀ o', decode maxDepth' bs = .error (.depthExceeded o') → o ≤ o' := by
  rcases deepens_readValue (Nat.succ_le_succ hle) (Slice.ofBytes bs) with hsame | ⟨o, ho, hpast⟩
  · have hrun : (readAny maxDepth).run (Slice.ofBytes bs) =
        (readAny maxDepth').run (Slice.ofBytes bs) := hsame
    exact .inl (by rw [decode, decode, hrun])
  · refine .inr ⟨o, decode_of_error ho, fun o' ho' => ?_⟩
    replace hpast : Past o ((readAny maxDepth').run (Slice.ofBytes bs)) := hpast
    unfold decode at ho'
    split at ho'
    case h_1 => cases ho'
    case h_2 hrun =>
      cases ho'
      rw [hrun] at hpast
      exact hpast

end MessagePack
