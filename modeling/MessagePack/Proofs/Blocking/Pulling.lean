import MessagePack.Blocking
import MessagePack.Proofs.Wire.Sequence
import MessagePack.Proofs.Wire.Simulation
import MessagePack.Wire.Pull

/-!
# Pulling values is decoding them

However a source cuts its bytes into bursts, and wherever calls to it are interrupted, a reader gets
the bytes in order, and finds out about the end of the source or a failure only if it wants more. So
a reader behaves like the slice of the bytes that are ahead of it, and pulling a value is decoding
these bytes: it takes the bytes of the value and no more.

* `Source.Serves s bs mishap`: a source that gives all the bytes, or those before a mishap.
* `Source.next_agrees`: pulling from a source and decoding its bytes.
-/

namespace MessagePack

/-! ## Sources -/

/-- The events give these bytes, in bursts of any sizes and with interrupted calls between them. -/
inductive Gives : List SourceEvent → Bytes → Prop
  | nil : Gives [] []
  | burst {bs rest : Bytes} {events : List SourceEvent} (h : Gives events rest) :
      Gives (.burst bs :: events) (bs ++ rest)
  | interruption {e : Failure} {bs : Bytes} {events : List SourceEvent}
      (he : e.kind = .interrupted) (h : Gives events bs) : Gives (.failure e :: events) bs

/-- What a reader meets that wants more than the source has given: the failure that comes next, or
what comes at the end. -/
inductive Meets (final : Option Failure) : List SourceEvent → Option Failure → Prop
  | final : Meets final [] final
  | failure {e : Failure} {events : List SourceEvent} (he : e.kind ≠ .interrupted) :
      Meets final (.failure e :: events) (some e)

/-- Why a reader stops short. -/
def SourceStop.short : Option Failure → SourceStop
  | none => ended
  | some e => failed e

namespace Source

/-! ## Gathering -/

section

variable {final : Option Failure} {before after : List SourceEvent} {bs : Bytes} {n : Nat}

theorem gather_of_le (h : Gives before bs) (hn : n ≤ bs.length) (got : List Bytes) :
    ∃ got' before', gather final got n (before ++ after) = (got', .full, before' ++ after) ∧
      got'.reverse.flatten = got.reverse.flatten ++ bs.take n ∧ Gives before' (bs.drop n) := by
  induction h generalizing n got with
  | nil =>
    obtain rfl : n = 0 := Nat.le_zero.1 hn
    exact ⟨got, [], by cases after <;> rfl, by simp, .nil⟩
  | @burst front rest events h ih =>
    cases n with
    | zero => exact ⟨got, .burst front :: events, rfl, by simp, .burst h⟩
    | succ n =>
      by_cases hfront : n + 1 ≤ front.length
      · refine ⟨front.take (n + 1) :: got, .burst (front.drop (n + 1)) :: events, ?_, ?_, ?_⟩
        · simp only [List.cons_append, gather, splitFront_of_le hfront]
        · simp [List.take_append_of_le_length hfront]
        · rw [List.drop_append_of_le_length hfront]
          exact .burst h
      · -- The burst is used up, and what is still wanted comes from the events after it.
        replace hfront := Nat.lt_of_not_le hfront
        rw [List.length_append] at hn
        obtain ⟨got', before', hgather, hgot, hrest⟩ :=
          @ih (n + 1 - front.length) (by omega) (front :: got)
        refine ⟨got', before', ?_, ?_, ?_⟩
        · simp only [List.cons_append, gather, splitFront_of_lt hfront]
          exact hgather
        · rw [hgot, List.take_append, List.take_of_length_le (Nat.le_of_lt hfront)]
          simp
        · rw [List.drop_append, List.drop_of_length_le (Nat.le_of_lt hfront)]
          exact hrest
  | @interruption e bs events he h ih =>
    cases n with
    | zero => exact ⟨got, .failure e :: events, rfl, by simp, .interruption he h⟩
    | succ n =>
      obtain ⟨got', before', hgather, hrest⟩ := ih hn got
      refine ⟨got', before', ?_, hrest⟩
      simp only [List.cons_append, gather, if_pos he]
      exact hgather

/-- All the bytes are gathered, and then the reader goes on to what comes after them. -/
theorem gather_of_lt (h : Gives before bs) (hn : bs.length < n) (got : List Bytes) :
    ∃ got', got'.reverse.flatten = got.reverse.flatten ++ bs ∧
      gather final got n (before ++ after) = gather final got' (n - bs.length) after := by
  induction h generalizing n got with
  | nil => exact ⟨got, by simp, rfl⟩
  | @burst front rest events h ih =>
    rw [List.length_append] at hn
    obtain ⟨n, rfl⟩ := Nat.exists_eq_succ_of_ne_zero (Nat.ne_zero_of_lt hn)
    obtain ⟨got', hgot, hgather⟩ := @ih (n + 1 - front.length) (by omega) (front :: got)
    refine ⟨got', by rw [hgot]; simp, ?_⟩
    have hfront : front.length < n + 1 := by omega
    rw [List.length_append, ← Nat.sub_sub, ← hgather]
    simp only [List.cons_append, gather, splitFront_of_lt hfront]
  | @interruption e bs events he h ih =>
    obtain ⟨n, rfl⟩ := Nat.exists_eq_succ_of_ne_zero (Nat.ne_zero_of_lt hn)
    obtain ⟨got', hgot, hgather⟩ := ih hn got
    refine ⟨got', hgot, ?_⟩
    rw [← hgather]
    simp only [List.cons_append, gather, if_pos he]

theorem gather_of_meets {obstacle : Option Failure} (h : Meets final after obstacle) (hn : 0 < n)
    (got : List Bytes) :
    ∃ events, gather final got n after = (got, .short obstacle, events) := by
  obtain ⟨n, rfl⟩ := Nat.exists_eq_succ_of_ne_zero (Nat.ne_zero_of_lt hn)
  cases h with
  | final => cases final <;> exact ⟨[], rfl⟩
  | @failure e events he => exact ⟨events, by simp only [gather, if_neg he]; rfl⟩

end

/-! ## Taking -/

/-- The bytes are ahead in the source, and then these events. -/
def Ahead (s : Source) (bs : Bytes) (after : List SourceEvent) : Prop :=
  ∃ before, s.events = before ++ after ∧ Gives before bs

section

variable {s : Source} {bs : Bytes} {after : List SourceEvent} {n : Nat}

/-- Exactly the bytes that a reader wants are gone from the source. -/
theorem take_of_le (h : s.Ahead bs after) (hn : n ≤ bs.length) :
    ∃ s', s.take n = (bs.take n, .full, s') ∧ s'.Ahead (bs.drop n) after ∧
      s'.final = s.final ∧ s'.position = s.position + n := by
  obtain ⟨before, hevents, hgives⟩ := h
  obtain ⟨got, before', hgather, hgot, hrest⟩ := gather_of_le hgives hn []
  rw [List.reverse_nil, List.flatten_nil, List.nil_append] at hgot
  refine ⟨⟨before' ++ after, s.final, s.position + n⟩, ?_, ⟨before', rfl, hrest⟩, rfl, rfl⟩
  unfold take
  rw [hevents, hgather]
  simp only [hgot, List.length_take_of_le hn]

theorem take_of_lt {obstacle : Option Failure} (h : s.Ahead bs after)
    (hmeets : Meets s.final after obstacle) (hn : bs.length < n) :
    ∃ s', s.take n = (bs, .short obstacle, s') := by
  obtain ⟨before, hevents, hgives⟩ := h
  obtain ⟨got, hgot, hgather⟩ := @gather_of_lt s.final before after bs n hgives hn []
  obtain ⟨events, hshort⟩ := gather_of_meets hmeets (Nat.sub_pos_of_lt hn) got
  rw [List.reverse_nil, List.flatten_nil, List.nil_append] at hgot
  refine ⟨⟨events, s.final, s.position + bs.length⟩, ?_⟩
  unfold take
  rw [hevents, hgather, hshort]
  simp only [hgot]

end

end Source

/-! ## Mishaps -/

/-- A failure that waits at a place in the bytes of a source. -/
structure Mishap where
  place : Nat
  error : Failure

namespace Mishap

/-- The mishap for a source that begins `n` bytes later. -/
def past (n : Nat) (m : Mishap) : Mishap := ⟨m.place - n, m.error⟩

/-- The bytes before a mishap, or all of them. -/
def front (bs : Bytes) : Option Mishap → Bytes
  | none => bs
  | some m => bs.take m.place

end Mishap

namespace Source

/-- The source gives the bytes and ends. If there is a mishap, a call that wants a byte from its
place on fails, from then on always or once. -/
inductive Serves (s : Source) (bs : Bytes) : Option Mishap → Prop
  | clean (hevents : Gives s.events bs) (hfinal : s.final = none) : Serves s bs none
  | always {m : Mishap} (hplace : m.place ≤ bs.length) (hkind : m.error.kind ≠ .interrupted)
      (hevents : Gives s.events (bs.take m.place)) (hfinal : s.final = some m.error) :
      Serves s bs (some m)
  | once {m : Mishap} {before after : List SourceEvent} (hplace : m.place ≤ bs.length)
      (hkind : m.error.kind ≠ .interrupted) (hevents : s.events = before ++ .failure m.error :: after)
      (hbefore : Gives before (bs.take m.place)) (hafter : Gives after (bs.drop m.place))
      (hfinal : s.final = none) : Serves s bs (some m)

/-- What is ahead up to the mishap, and how the source serves what is left once some of it is
taken. -/
theorem Serves.ahead {s : Source} {bs : Bytes} {mishap : Option Mishap} (h : s.Serves bs mishap) :
    ∃ after, s.Ahead (Mishap.front bs mishap) after ∧
      Meets s.final after (mishap.map Mishap.error) ∧
      ∀ (s' : Source) (n : Nat), s'.Ahead ((Mishap.front bs mishap).drop n) after →
        s'.final = s.final → n ≤ (Mishap.front bs mishap).length →
        s'.Serves (bs.drop n) (mishap.map (Mishap.past n)) := by
  cases h with
  | clean hevents hfinal =>
    refine ⟨[], ⟨s.events, by simp, hevents⟩, hfinal ▸ .final, fun s' n h hsame _ => ?_⟩
    obtain ⟨before, hbefore, hgives⟩ := h
    rw [List.append_nil] at hbefore
    exact .clean (hbefore ▸ hgives) (hsame.trans hfinal)
  | @always m hplace hkind hevents hfinal =>
    refine ⟨[], ⟨s.events, by simp, hevents⟩, hfinal ▸ .final, fun s' n h hsame hn => ?_⟩
    obtain ⟨before, hbefore, hgives⟩ := h
    rw [List.append_nil] at hbefore
    rw [Mishap.front, List.drop_take] at hgives
    refine .always ?_ hkind (hbefore ▸ hgives) (hsame.trans hfinal)
    rw [List.length_drop]
    exact Nat.sub_le_sub_right hplace n
  | @once m before after hplace hkind hevents hbefore hafter hfinal =>
    refine ⟨_, ⟨before, hevents, hbefore⟩, .failure hkind, fun s' n h hsame hn => ?_⟩
    obtain ⟨before', hevents', hgives⟩ := h
    rw [Mishap.front, List.length_take_of_le hplace] at hn
    rw [Mishap.front, List.drop_take] at hgives
    refine .once ?_ hkind hevents' hgives ?_ (hsame.trans hfinal)
    · rw [List.length_drop]
      exact Nat.sub_le_sub_right hplace n
    · show Gives after ((bs.drop n).drop (m.place - n))
      rwa [List.drop_drop, Nat.add_sub_cancel' hn]

end Source

open Reading

/-! ## Reads -/

/-- The failure that is kept when a step ends with an error: that of the source, if bytes were
missing and it is not just that the input ended. -/
def keptFailure : Option Failure → DecodeError → Option Failure
  | some e, .endOfBuffer _ => if e.kind = .unexpectedEnd then none else some e
  | _, _ => none

theorem keptFailure_of_ne {e : DecodeError} (obstacle : Option Failure)
    (hne : ∀ o, e ≠ .endOfBuffer o) : keptFailure obstacle e = none := by
  cases e with
  | endOfBuffer o => exact absurd rfl (hne o)
  | invalidByte b o | depthExceeded o => cases obstacle <;> rfl

/-- The reader began at `start`, has taken what comes before the slice, and has the bytes of the
slice ahead. -/
structure Pulls (start : Nat) (final : Option Failure) (after : List SourceEvent) (p : PullReader)
    (r : Slice) : Prop where
  offset : p.offset = r.offset
  position : p.source.position = start + r.offset
  final : p.source.final = final
  ahead : p.source.Ahead r.rest after
  failure : p.failure = none

section

variable {start : Nat} {final obstacle : Option Failure} {after : List SourceEvent}

theorem Pulls.ofSource {s : Source} {bs : Bytes} (h : s.Ahead bs after) :
    Pulls s.position s.final after (PullReader.ofSource s) (Slice.ofBytes bs) :=
  ⟨rfl, rfl, rfl, h, rfl⟩

/-- Taking bytes ends like reading them from the slice, whatever is reported of those that did
arrive before a failure. -/
theorem endAlike_pull (hmeets : Meets final after obstacle) (available : SourceStop → Nat → Nat)
    (n : Nat) :
    EndAlike (Pulls start final after) (fun e p _ => p.failure = keptFailure obstacle e)
      (ofRead (PullReader.pull available n)) (ofRead (Slice.read n)) := by
  intro p r h
  unfold ofRead PullReader.pull Slice.read
  by_cases hn : n ≤ r.rest.length
  · obtain ⟨source, htake, hahead, hfinal, hposition⟩ := Source.take_of_le h.ahead hn
    rw [htake, splitFront_of_le hn]
    refine .ok ⟨?_, ?_, hfinal.trans h.final, hahead, h.failure⟩
    · show p.offset + n = r.offset + n
      rw [h.offset]
    · show source.position = start + (r.offset + n)
      rw [hposition, h.position, Nat.add_assoc]
  · replace hn := Nat.lt_of_not_le hn
    obtain ⟨source, htake⟩ := Source.take_of_lt h.ahead (h.final ▸ hmeets) hn
    rw [htake, splitFront_of_lt hn, h.offset]
    cases obstacle with
    | none => exact .error h.failure
    | some e =>
      refine .error ?_
      show (if e.kind = .unexpectedEnd then p.failure else some e) = _
      rw [h.failure, keptFailure]

theorem readsAlike_pulls (hmeets : Meets final after obstacle) :
    ReadsAlike (Pulls start final after) fun e p _ => p.failure = keptFailure obstacle e where
  offset h := h.offset
  readField n := endAlike_pull hmeets _ n
  readPayload n := endAlike_pull hmeets _ n
  error h hne := h.failure.trans (keptFailure_of_ne obstacle hne).symm

end

/-! ## Values -/

namespace Source

section

variable {maxDepth : Nat} {s : Source} {bs : Bytes} {after : List SourceEvent}
  {obstacle : Option Failure}

theorem endAlike_readAny (maxDepth : Nat) (h : s.Ahead bs after)
    (hmeets : Meets s.final after obstacle) :
    Ends (Pulls s.position s.final after) (fun e p _ => p.failure = keptFailure obstacle e)
      ((readAny maxDepth).run (PullReader.ofSource s))
      ((readAny maxDepth).run (Slice.ofBytes bs)) :=
  endAlike_readValue (readsAlike_pulls hmeets) (maxDepth + 1) _ _ (.ofSource h)

/-- A value is pulled from the bytes that it is decoded from. -/
theorem next_of_ok (h : s.Ahead bs after) (hmeets : Meets s.final after obstacle) {v : Value}
    {n : Nat} (hdecode : decode maxDepth bs = .ok (v, n)) :
    ∃ s', s.next maxDepth = (.ok v, s') ∧ s'.Ahead (bs.drop n) after ∧ s'.final = s.final ∧
      s'.position = s.position + n := by
  have hends := endAlike_readAny maxDepth h hmeets
  have hslice : (readAny maxDepth).run (Slice.ofBytes bs) = (.ok v, ⟨bs.drop n, 0 + n⟩) :=
    readAny_of_ok hdecode 0
  unfold next
  rw [hslice, Nat.zero_add] at hends
  generalize (readAny maxDepth).run (PullReader.ofSource s) = result at hends ⊢
  cases hends with
  | ok hpulls => exact ⟨_, rfl, hpulls.ahead, hpulls.final, hpulls.position⟩

/-- The failure of the source comes before the error that it causes. -/
theorem next_of_error (h : s.Ahead bs after) (hmeets : Meets s.final after obstacle)
    {e : DecodeError} (hdecode : decode maxDepth bs = .error e) :
    (s.next maxDepth).1 = .error ((keptFailure obstacle e).elim (.decode e) .io) := by
  have hends := endAlike_readAny maxDepth h hmeets
  have hslice : ((readAny maxDepth).run (Slice.ofBytes bs)).1 = .error (e.shift 0) :=
    readAny_of_error hdecode 0
  rw [DecodeError.shift_zero] at hslice
  unfold next
  generalize (readAny maxDepth).run (Slice.ofBytes bs) = slice at hends hslice
  generalize (readAny maxDepth).run (PullReader.ofSource s) = result at hends ⊢
  cases hends with
  | ok => cases hslice
  | error hkept =>
    cases hslice
    simp only [hkept]
    cases keptFailure obstacle e <;> rfl

end

/-! ## Values one after the other -/

/-- What calls give one after the other, and the source after them. -/
def pulls (maxDepth : Nat) : (calls : Nat) → Source → List (Except ReadError Value) × Source
  | 0, s => ([], s)
  | calls + 1, s =>
    let (answer, s) := s.next maxDepth
    let (answers, s) := pulls maxDepth calls s
    (answer :: answers, s)

/-- Calls give the values that stand in the bytes ahead, and leave the source where these end. -/
theorem pulls_of_consecutive {maxDepth o p : Nat} {s : Source} {bs : Bytes} {vs : List Value}
    {after : List SourceEvent} {obstacle : Option Failure} (hvs : Consecutive maxDepth bs o vs p)
    (h : s.Ahead (bs.drop o) after) (hmeets : Meets s.final after obstacle) :
    ∃ s' : Source, s'.Ahead (bs.drop p) after ∧ s'.final = s.final ∧
      s'.position + o = s.position + p ∧
      ∀ calls, s.pulls maxDepth (vs.length + calls) =
        (vs.map .ok ++ (s'.pulls maxDepth calls).1, (s'.pulls maxDepth calls).2) := by
  induction hvs generalizing s with
  | nil => exact ⟨s, h, rfl, rfl, fun calls => by rw [List.length_nil, Nat.zero_add]; rfl⟩
  | @cons o n p v vs hv _ ih =>
    obtain ⟨s₁, hnext, h₁, hfinal₁, hposition₁⟩ := next_of_ok h hmeets hv
    rw [List.drop_drop] at h₁
    obtain ⟨s', h', hfinal, hposition, hpulls⟩ := ih h₁ (hfinal₁ ▸ hmeets)
    refine ⟨s', h', hfinal.trans hfinal₁, by omega, fun calls => ?_⟩
    rw [List.length_cons, Nat.add_right_comm, pulls, hnext]
    simp only [hpulls]
    rfl

/-- A source that ends without a mishap gives the values of its bytes in turn, and then the error
that decoding stops with. -/
theorem pulls_of_clean {s : Source} {bs : Bytes} (h : s.Serves bs none) (maxDepth : Nat) :
    (∀ k ≤ (decodeAll maxDepth bs).values.length, ∃ o s',
      Consecutive maxDepth bs 0 ((decodeAll maxDepth bs).values.take k) o ∧
      s.pulls maxDepth k = (((decodeAll maxDepth bs).values.take k).map .ok, s') ∧
      s'.position = s.position + o) ∧
    ∃ e, (decodeAll maxDepth bs).Exhausts maxDepth bs e ∧
      (s.pulls maxDepth ((decodeAll maxDepth bs).values.length + 1)).1 =
        (decodeAll maxDepth bs).values.map .ok ++ [.error (.decode e)] := by
  obtain ⟨after, hahead, hmeets, -⟩ := h.ahead
  obtain ⟨hall, e, hexhausts⟩ := consecutive_decodeAll maxDepth bs
  refine ⟨fun k hk => ?_, e, hexhausts, ?_⟩
  · rw [← List.take_append_drop k (decodeAll maxDepth bs).values] at hall
    obtain ⟨o, hfirst, -⟩ := hall.of_append
    obtain ⟨s', -, -, hposition, hpulls⟩ := pulls_of_consecutive hfirst hahead hmeets
    have hcalls := hpulls 0
    rw [List.length_take_of_le hk] at hcalls
    exact ⟨o, s', hfirst, by simpa [pulls] using hcalls, hposition⟩
  · obtain ⟨s', hahead', hfinal, -, hpulls⟩ := pulls_of_consecutive hall hahead hmeets
    have hfails := next_of_error hahead' (hfinal ▸ hmeets) hexhausts.fails
    rw [hpulls 1]
    show _ ++ [(s'.next maxDepth).1] = _
    rw [hfails]
    rfl

/-- Pulling from a source agrees with decoding the bytes before its mishap, or all its bytes. A
value comes with the bytes that it is decoded from, and what is left is served as before. The error
is that of decoding; when bytes are missing, a failure of the source comes before it unless it says
that the input ended. Call by call, a source without a mishap gives all the values of its bytes. -/
theorem next_agrees {s : Source} {bs : Bytes} {mishap : Option Mishap} (h : s.Serves bs mishap)
    (maxDepth : Nat) :
    (∀ v n, decode maxDepth (Mishap.front bs mishap) = .ok (v, n) →
      ∃ s', s.next maxDepth = (.ok v, s') ∧ s'.position = s.position + n ∧
        s'.Serves (bs.drop n) (mishap.map (Mishap.past n))) ∧
    (∀ e, decode maxDepth (Mishap.front bs mishap) = .error e → (∀ o, e ≠ .endOfBuffer o) →
      (s.next maxDepth).1 = .error (.decode e)) ∧
    (∀ o, decode maxDepth (Mishap.front bs mishap) = .error (.endOfBuffer o) →
      (∀ m, mishap = some m → m.error.kind ≠ .unexpectedEnd →
        (s.next maxDepth).1 = .error (.io m.error)) ∧
      ((∀ m, mishap = some m → m.error.kind = .unexpectedEnd) →
        (s.next maxDepth).1 = .error (.decode (.endOfBuffer o)))) ∧
    (mishap = none →
      (∀ k ≤ (decodeAll maxDepth bs).values.length, ∃ o s',
        Consecutive maxDepth bs 0 ((decodeAll maxDepth bs).values.take k) o ∧
        s.pulls maxDepth k = (((decodeAll maxDepth bs).values.take k).map .ok, s') ∧
        s'.position = s.position + o) ∧
      ∃ e, (decodeAll maxDepth bs).Exhausts maxDepth bs e ∧
        (s.pulls maxDepth ((decodeAll maxDepth bs).values.length + 1)).1 =
          (decodeAll maxDepth bs).values.map .ok ++ [.error (.decode e)]) := by
  obtain ⟨after, hahead, hmeets, hleft⟩ := h.ahead
  refine ⟨fun v n hdecode => ?_, fun e hdecode hne => ?_, fun o hdecode => ⟨?_, fun hend => ?_⟩, ?_⟩
  · obtain ⟨s', hnext, hahead', hfinal, hposition⟩ := next_of_ok hahead hmeets hdecode
    have hn := (bounds_of_decode hdecode).2
    exact ⟨s', hnext, hposition, hleft s' n hahead' hfinal hn⟩
  · rw [next_of_error hahead hmeets hdecode, keptFailure_of_ne _ hne]
    rfl
  · rintro m rfl hkind
    rw [next_of_error hahead hmeets hdecode]
    simp [keptFailure, hkind]
  · rw [next_of_error hahead hmeets hdecode]
    cases mishap with
    | none => rfl
    | some m => simp [keptFailure, hend m rfl]
  · rintro rfl
    exact pulls_of_clean h maxDepth

/-- A string of two bytes, of which the second comes after an interruption, and then a source that
goes on to fail. -/
def stuttering : Source where
  events := [.burst [0xa2, 0x68], .failure ⟨.interrupted, "again"⟩, .burst [0x69]]
  final := some ⟨.connectionReset, "gone"⟩
  position := 0

/-- The failure right after the string does not keep the string back, and shows in the next call. -/
theorem next_agrees_stuttering :
    stuttering.Serves [0xa2, 0x68, 0x69, 0xc0] (some ⟨3, ⟨.connectionReset, "gone"⟩⟩) ∧
      ∃ s', stuttering.next 0 = (.ok (.string [0x68, 0x69]), s') ∧ s'.position = 3 ∧
        (s'.next 0).1 = .error (.io ⟨.connectionReset, "gone"⟩) := by
  have hgives : Gives stuttering.events [0xa2, 0x68, 0x69] :=
    .burst (.interruption rfl (.burst .nil))
  have h : stuttering.Serves [0xa2, 0x68, 0x69, 0xc0]
      (some ⟨3, ⟨.connectionReset, "gone"⟩⟩) := .always (by decide) (by decide) hgives rfl
  obtain ⟨hok, -⟩ := next_agrees h 0
  obtain ⟨s', hnext, hposition, hleft⟩ := hok (.string [0x68, 0x69]) 3 rfl
  obtain ⟨-, -, hshort, -⟩ := next_agrees hleft 0
  exact ⟨h, s', hnext, hposition, (hshort 0 rfl).1 _ rfl (by decide)⟩

end Source

end MessagePack
