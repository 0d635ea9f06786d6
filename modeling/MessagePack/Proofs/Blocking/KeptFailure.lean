import MessagePack.Wire.Pull
import MessagePack.Proofs.Wire.Cursors

/-!
# The failure that a reader keeps

A reader of a blocking source keeps the failure that a call stops at, until a later call stops at
another. Calls that succeed, and calls that find the end of the input, leave it as it is. So what it
gives out in the end is the failure of the latest call that failed, which need not be the last call.

* `PullReader.takeError_latest`: what is given out after calls, and when that is about the last one.
-/

namespace MessagePack

/-! ## Calls -/

/-- A call for a number of bytes. -/
inductive ReadCall where
  | byte
  | field (n : Nat)
  | payload (n : Nat)
  | skip (n : Nat)

namespace ReadCall

/-- The call as something that every input can be asked. -/
def step : ReadCall → InputStep
  | byte => .byte
  | field n => .field n
  | payload n => .payload n
  | skip n => .skip n

/-- The number of bytes that are wanted. -/
def wanted : ReadCall → Nat
  | byte => 1
  | field n | payload n | skip n => n

end ReadCall

/-- The failure that a call keeps which stops for this reason. -/
def SourceStop.kept? : SourceStop → Option Failure
  | full | ended => none
  | failed e => if e.kind = .unexpectedEnd then none else some e

theorem SourceStop.kept?_eq_some_iff {stop : SourceStop} {e : Failure} :
    stop.kept? = some e ↔ stop = failed e ∧ e.kind ≠ .unexpectedEnd := by
  cases stop with
  | full | ended => simp [kept?]
  | failed e' =>
    simp only [kept?, failed.injEq]
    split <;> grind

namespace Source

/-- Why each of some calls stops that are made one after the other. -/
def stops (s : Source) : List ReadCall → List SourceStop
  | [] => []
  | call :: calls =>
    let (_, stop, s) := s.take call.wanted
    stop :: s.stops calls

/-- Interrupted calls are repeated, so a reader stops at such a failure only if it never ends. -/
theorem final_of_gather {final : Option Failure} {got : List Bytes} {n : Nat}
    {events : List SourceEvent} {e : Failure}
    (h : (gather final got n events).2.1 = .failed e) (hkind : e.kind = .interrupted) :
    final = some e := by
  fun_induction gather final got n events <;> grind

theorem final_of_mem_stops {s : Source} {calls : List ReadCall} {e : Failure}
    (h : .failed e ∈ s.stops calls) (hkind : e.kind = .interrupted) : s.final = some e := by
  induction calls generalizing s with
  | nil => cases h
  | cons call calls ih =>
    rcases List.mem_cons.1 h with hstop | hlater
    · exact final_of_gather hstop.symm hkind
    · exact ih (s := (s.take call.wanted).2.2) hlater

end Source

/-! ## One call -/

namespace PullReader

/-- What a reader has come to when a call on it stopped for this reason. -/
structure After (p : PullReader) (stop : SourceStop) (source : Source) (q : PullReader) : Prop where
  source : q.source = source
  failure : q.failure = stop.kept?.or p.failure

theorem after_pull (available : SourceStop → Nat → Nat) (n : Nat) (p : PullReader) :
    p.After (p.source.take n).2.1 (p.source.take n).2.2 (p.pull available n).2 := by
  unfold pull
  rcases p.source.take n with ⟨bs, _ | _ | e, source⟩
  case full | ended => exact ⟨rfl, rfl⟩
  case failed =>
    refine ⟨rfl, ?_⟩
    simp only [SourceStop.kept?]
    split <;> rfl

theorem pull_isOk (available : SourceStop → Nat → Nat) (n : Nat) (p : PullReader) :
    (p.pull available n).1.isOk = ((p.source.take n).2.1 == .full) := by
  unfold pull
  rcases p.source.take n with ⟨bs, _ | _ | e, source⟩ <;> rfl

theorem readByte_eq (p : PullReader) :
    Readable.readByte p = (p.pull (fun _ _ => 0) 1).map (Except.map (·.headD 0)) id := by
  have hfield : Readable.readField 1 p = p.pull (fun _ _ => 0) 1 := rfl
  unfold Readable.readByte
  rw [hfield]
  rcases p.pull (fun _ _ => 0) 1 with ⟨_ | _, q⟩ <;> rfl

theorem skip_eq (n : Nat) (p : PullReader) :
    ∃ available, p.skip n = (p.pull available n).map (Except.map fun _ => ()) id := by
  apply Exists.intro
  unfold skip
  dsimp only
  split
  case h_1 hpull => exact (congrArg (Prod.map (Except.map fun _ => ()) id) hpull).symm
  case h_2 hpull => exact (congrArg (Prod.map (Except.map fun _ => ()) id) hpull).symm

end PullReader

namespace ReadCall

/-- Every call takes bytes from the source, and reports a short read if that ends in one. -/
theorem perform_eq (call : ReadCall) (p : PullReader) :
    ∃ (available : SourceStop → Nat → Nat) (answer : Except ShortRead Bytes → InputAnswer),
      call.step.perform p = (p.pull available call.wanted).map answer id ∧
        ∀ taken, (answer taken).shortRead?.isNone = taken.isOk := by
  cases call with
  | byte =>
    refine ⟨fun _ _ => 0, InputAnswer.byte ∘ Except.map (·.headD 0), ?_,
      fun taken => by cases taken <;> rfl⟩
    exact congrArg (Prod.map InputAnswer.byte id) (PullReader.readByte_eq p)
  | field n =>
    exact ⟨fun _ _ => 0, InputAnswer.bytes, rfl, fun taken => by cases taken <;> rfl⟩
  | payload n =>
    exact ⟨fun _ got => got, InputAnswer.bytes, rfl, fun taken => by cases taken <;> rfl⟩
  | skip n =>
    obtain ⟨available, hskip⟩ := PullReader.skip_eq n p
    refine ⟨available, InputAnswer.skipped ∘ Except.map fun _ => (), ?_,
      fun taken => by cases taken <;> rfl⟩
    exact congrArg (Prod.map InputAnswer.skipped id) hskip

/-- A call goes on with what it leaves of the source, and leaves the failure that was kept unless it
stops at another. It reports no short read just when it gets what it wants. -/
theorem perform_spec (call : ReadCall) (p : PullReader) :
    (call.step.perform p).2.source = (p.source.take call.wanted).2.2 ∧
      (call.step.perform p).2.failure = (p.source.take call.wanted).2.1.kept?.or p.failure ∧
      (call.step.perform p).1.shortRead?.isNone =
        ((p.source.take call.wanted).2.1 == .full) := by
  obtain ⟨available, answer, hperform, hanswer⟩ := call.perform_eq p
  obtain ⟨hsource, hfailure⟩ := PullReader.after_pull available call.wanted p
  rw [hperform, ← PullReader.pull_isOk available]
  exact ⟨hsource, hfailure, hanswer _⟩

end ReadCall

/-! ## Calls one after the other -/

/-- The latest thing that is found in a list is found at its end unless nothing is, or less than at
the end. -/
theorem getLast?_filterMap_eq_iff {α β : Type} (f : α → Option β) (xs : List α) :
    (xs.filterMap f).getLast? = xs.getLast?.bind f ↔
      (∀ x ∈ xs, f x = none) ∨ ∃ y, xs.getLast?.bind f = some y := by
  rcases List.eq_nil_or_concat xs with rfl | ⟨front, x, rfl⟩
  · simp
  · cases hx : f x with
    | none => simp [hx, or_imp, forall_and]
    | some y => simp [hx]

namespace PullReader

/-- The failure that is kept after calls is the latest that one of them stopped at, or the one from
before if none did. -/
theorem failure_performAll (p : PullReader) (calls : List ReadCall) :
    (performAll p (calls.map ReadCall.step)).failure =
      ((p.source.stops calls).filterMap SourceStop.kept?).getLast?.or p.failure := by
  induction calls generalizing p with
  | nil => rfl
  | cons call calls ih =>
    obtain ⟨hsource, hfailure, -⟩ := call.perform_spec p
    have hlater := ih (call.step.perform p).2
    rw [hsource, hfailure, ← Option.or_assoc] at hlater
    rw [List.map_cons, performAll, List.foldl_cons, ← performAll, hlater, Source.stops]
    cases hkept : (p.source.take call.wanted).2.1.kept? with
    | none => simp [hkept]
    | some e => simp [hkept, List.getLast?_cons]

theorem observations_stops (p : PullReader) (calls : List ReadCall) :
    (observations p (calls.map ReadCall.step)).map (·.answer.shortRead?.isNone) =
      (p.source.stops calls).map (· == .full) := by
  induction calls generalizing p with
  | nil => rfl
  | cons call calls ih =>
    obtain ⟨hsource, -, hanswer⟩ := call.perform_spec p
    have hlater := ih (call.step.perform p).2
    rw [hsource] at hlater
    rw [List.map_cons, observations, List.map_cons, hlater, hanswer]
    rfl

/-- What is given out after calls is the latest failure that one of them stopped at, other than an
unexpected end or an interruption, and it is given out once. This is what the last call stopped at
just when that is a failure as well, or when no call stopped at one: calls after the failed one do
not clear it, whether they get what they want or find the end of the input. -/
theorem takeError_latest (s : Source) (calls : List ReadCall) :
    let p := performAll (ofSource s) (calls.map ReadCall.step)
    let stops := s.stops calls
    (observations (ofSource s) (calls.map ReadCall.step)).map (·.answer.shortRead?.isNone) =
      stops.map (· == .full) ∧
    p.takeError.1 = (stops.filterMap SourceStop.kept?).getLast? ∧
    p.takeError.2.takeError.1 = none ∧
    (∀ e, p.takeError.1 = some e → .failed e ∈ stops ∧ e.kind ≠ .unexpectedEnd ∧
      (e.kind = .interrupted → s.final = some e)) ∧
    (p.takeError.1 = stops.getLast?.bind SourceStop.kept? ↔
      (∀ stop ∈ stops, stop.kept? = none) ∨ ∃ e, stops.getLast?.bind SourceStop.kept? = some e) := by
  intro p stops
  have hlatest : p.takeError.1 = (stops.filterMap SourceStop.kept?).getLast? :=
    (failure_performAll (ofSource s) calls).trans Option.or_none
  refine ⟨observations_stops (ofSource s) calls, hlatest, rfl, fun e he => ?_, ?_⟩
  · rw [hlatest] at he
    obtain ⟨stop, hstop, hkept⟩ := List.mem_filterMap.1 (List.mem_of_getLast? he)
    obtain ⟨rfl, hkind⟩ := SourceStop.kept?_eq_some_iff.1 hkept
    exact ⟨hstop, hkind, Source.final_of_mem_stops hstop⟩
  · rw [hlatest]
    exact getLast?_filterMap_eq_iff _ _

/-- A source that fails once and then gives two bytes. -/
def recovering : Source where
  events := [.failure ⟨.connectionReset, "reset"⟩, .burst [1, 2]]
  final := none
  position := 0

/-- The second call gets its byte, and yet the failure of the first is given out after it. -/
theorem takeError_stale :
    let p := performAll (ofSource recovering) ([ReadCall.byte, .byte].map ReadCall.step)
    recovering.stops [.byte, .byte] = [.failed ⟨.connectionReset, "reset"⟩, .full] ∧
      p.takeError.1 = some ⟨.connectionReset, "reset"⟩ ∧
      p.takeError.1 ≠ (recovering.stops [.byte, .byte]).getLast?.bind SourceStop.kept? :=
  ⟨rfl, rfl, nofun⟩

end PullReader

end MessagePack
