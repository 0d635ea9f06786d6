import MessagePack.Proofs.Bytes.OutputBuffer
import MessagePack.Proofs.Wire.Emission
import MessagePack.Wire.Emit

/-!
# Buffers and outlets get the same bytes

What an encoder adds does not depend on where it goes. An output buffer collects all of it, and an
outlet takes the first bytes of the same, as many as it has room for, however few of them a call
takes and wherever pieces are cut into writes.

* `Outlet.Takes`: what an outlet has done with bytes that were written to it, and how that ended.
* `Outlet.emits_up_to_room`: an outlet against a buffer.
-/

namespace MessagePack

namespace Outlet

/-! ## Room -/

/-- What there is room for of some bytes. -/
def upTo (room : Option Nat) (bs : Bytes) : Bytes := room.elim bs bs.take

/-- There is room for all of the bytes. -/
def Fits (room : Option Nat) (bs : Bytes) : Prop := ∀ n ∈ room, bs.length ≤ n

/-- The room that is left after some bytes. -/
def roomAfter (room : Option Nat) (bs : Bytes) : Option Nat := room.map (· - bs.length)

section

variable {room : Option Nat} {bs cs : Bytes}

instance : Decidable (Fits room bs) := by
  unfold Fits
  infer_instance

theorem fits_some {n : Nat} : Fits (some n) bs ↔ bs.length ≤ n := by
  simp [Fits]

theorem fits_nil : Fits room [] := fun n _ => n.zero_le

theorem upTo_of_fits (h : Fits room bs) : upTo room bs = bs := by
  cases room with
  | none => rfl
  | some n => exact List.take_of_length_le (fits_some.1 h)

theorem upTo_append : upTo room (bs ++ cs) = upTo room bs ++ upTo (roomAfter room bs) cs := by
  cases room with
  | none => rfl
  | some n => exact List.take_append

/-- Nothing more goes where there was too little room. -/
theorem upTo_append_of_not_fits (h : ¬Fits room bs) : upTo room (bs ++ cs) = upTo room bs := by
  cases room with
  | none => exact absurd nofun h
  | some n =>
    rw [fits_some] at h
    exact List.take_append_of_le_length (by omega)

theorem fits_append : Fits room (bs ++ cs) ↔ Fits room bs ∧ Fits (roomAfter room bs) cs := by
  cases room with
  | none => simp [Fits, roomAfter]
  | some n =>
    rw [roomAfter, Option.map_some, fits_some, fits_some, fits_some, List.length_append]
    omega

theorem roomAfter_append : roomAfter room (bs ++ cs) = roomAfter (roomAfter room bs) cs := by
  cases room with
  | none => rfl
  | some n =>
    rw [roomAfter, roomAfter, roomAfter, Option.map_some, Option.map_some, Option.map_some,
      List.length_append, Nat.sub_add_eq]

theorem roomAfter_append_of_not_fits (h : ¬Fits room bs) :
    roomAfter room (bs ++ cs) = roomAfter room bs := by
  cases room with
  | none => rfl
  | some n =>
    rw [fits_some] at h
    rw [roomAfter, roomAfter, Option.map_some, Option.map_some, List.length_append]
    exact congrArg some (by omega)

end

/-! ## What an outlet does with bytes -/

/-- Every call takes at least a byte where there is room for one, and fails for good where there is
none. -/
structure Accepting (o : Outlet) : Prop where
  burst_pos : ∀ taken, 0 < o.burst taken
  lasting : o.failure.kind ≠ .interrupted

/-- Of bytes that were written, the outlet took those that there was room for. -/
structure Took (bs : Bytes) (o o' : Outlet) : Prop where
  bytes_eq : o'.bytes = o.bytes ++ upTo o.room bs
  room_eq : o'.room = roomAfter o.room bs
  burst_eq : o'.burst = o.burst
  failure_eq : o'.failure = o.failure

/-- Writing bytes ends well if there is room for all, and with the failure of the outlet if not. -/
structure Takes (bs : Bytes) (o : Outlet) (r : Except Failure Unit) (o' : Outlet) : Prop
    extends Took bs o o' where
  ok_of_fits : Fits o.room bs → r = .ok ()
  error_of_not_fits : ¬Fits o.room bs → r = .error o.failure

section

variable {bs cs : Bytes} {o o' o'' : Outlet} {r : Except Failure Unit}

theorem Took.nil (o : Outlet) : Took [] o o where
  bytes_eq := by rw [upTo_of_fits fits_nil, List.append_nil]
  room_eq := by cases hroom : o.room <;> rfl
  burst_eq := rfl
  failure_eq := rfl

theorem Took.append (h : Took bs o o') (h' : Took cs o' o'') : Took (bs ++ cs) o o'' where
  bytes_eq := by rw [h'.bytes_eq, h.bytes_eq, h.room_eq, upTo_append, List.append_assoc]
  room_eq := by rw [h'.room_eq, h.room_eq, roomAfter_append]
  burst_eq := h'.burst_eq.trans h.burst_eq
  failure_eq := h'.failure_eq.trans h.failure_eq

theorem Took.accepting (h : Took bs o o') (ho : o.Accepting) : o'.Accepting := by
  refine ⟨fun taken => ?_, ?_⟩
  · rw [h.burst_eq]
    exact ho.burst_pos taken
  · rw [h.failure_eq]
    exact ho.lasting

theorem Takes.nil (o : Outlet) : Takes [] o (.ok ()) o :=
  ⟨.nil o, fun _ => rfl, fun h => absurd fits_nil h⟩

theorem Takes.fits (h : Takes bs o (.ok ()) o') : Fits o.room bs := by
  refine Decidable.byContradiction fun hfull => ?_
  cases h.error_of_not_fits hfull

theorem Takes.append (h : Takes bs o (.ok ()) o') (h' : Takes cs o' r o'') :
    Takes (bs ++ cs) o r o'' where
  toTook := h.toTook.append h'.toTook
  ok_of_fits hfits := h'.ok_of_fits (h.room_eq ▸ (fits_append.1 hfits).2)
  error_of_not_fits hfull := by
    rw [← h.failure_eq]
    refine h'.error_of_not_fits fun hfits => hfull (fits_append.2 ⟨h.fits, ?_⟩)
    rwa [h.room_eq] at hfits

/-- After a failure nothing more is written, and there was no room for more. -/
theorem Takes.append_of_error {e : Failure} (h : Takes bs o (.error e) o') (cs : Bytes) :
    Takes (bs ++ cs) o (.error e) o' := by
  have hfull : ¬Fits o.room bs := fun hfits => by cases h.ok_of_fits hfits
  refine ⟨⟨?_, ?_, h.burst_eq, h.failure_eq⟩, ?_, fun _ => h.error_of_not_fits hfull⟩
  · rw [h.bytes_eq, upTo_append_of_not_fits hfull]
  · rw [h.room_eq, roomAfter_append_of_not_fits hfull]
  · exact fun hfits => absurd (fits_append.1 hfits).1 hfull

end

/-! ## Writes -/

/-- The most bytes that the next call takes. -/
def limit (o : Outlet) : Nat :=
  match o.room with
  | some room => min room (o.burst o.taken)
  | none => o.burst o.taken

/-- The outlet when a call has taken bytes. -/
def accept (front : Bytes) (o : Outlet) : Outlet :=
  { o with
    room := roomAfter o.room front
    pieces := front :: o.pieces
    taken := o.taken + front.length }

section

variable {o : Outlet}

theorem write_eq (h : o.room ≠ some 0) (bs : Bytes) :
    o.write bs = (.ok (bs.take o.limit).length, o.accept (bs.take o.limit)) := by
  rw [write, if_neg h]
  rfl

theorem takes_accept {front : Bytes} (h : Fits o.room front) :
    Takes front o (.ok ()) (o.accept front) where
  bytes_eq := by
    rw [upTo_of_fits h]
    simp [bytes, accept]
  room_eq := rfl
  burst_eq := rfl
  failure_eq := rfl
  ok_of_fits _ := rfl
  error_of_not_fits hfull := absurd h hfull

theorem fits_take_limit (o : Outlet) (bs : Bytes) : Fits o.room (bs.take o.limit) := by
  intro room hroom
  have hle : o.limit ≤ room := by
    rw [limit, Option.mem_def.1 hroom]
    exact Nat.min_le_left _ _
  rw [List.length_take]
  omega

theorem limit_pos (ho : o.Accepting) (h : o.room ≠ some 0) : 0 < o.limit := by
  have hburst : 0 < o.burst o.taken := ho.burst_pos o.taken
  unfold limit
  split
  · rename_i room hroom
    have hne : room ≠ 0 := fun h0 => h (h0 ▸ hroom)
    omega
  · exact hburst

theorem take_append_drop_length (n : Nat) (bs : Bytes) :
    bs.take n ++ bs.drop (bs.take n).length = bs := by
  rw [List.length_take]
  rcases Nat.le_total n bs.length with h | h
  · rw [Nat.min_eq_left h, List.take_append_drop]
  · rw [Nat.min_eq_right h, List.take_of_length_le h, List.drop_length, List.append_nil]

/-- Bytes that are offered in enough calls are taken as far as there is room. -/
theorem takes_offer (ho : o.Accepting) {calls : Nat} {bs : Bytes} (hcalls : bs.length ≤ calls) :
    Takes bs o (offer calls bs o).1 (offer calls bs o).2 := by
  -- By the calls: each takes a byte at least, so they last as long as bytes are left.
  induction calls generalizing bs o with
  | zero =>
    obtain rfl : bs = [] := List.length_eq_zero_iff.1 (by omega)
    exact .nil o
  | succ calls ih =>
    cases bs with
    | nil => exact .nil o
    | cons b bs =>
      rw [offer]
      by_cases hroom : o.room = some 0
      · have hfull : ¬Fits o.room (b :: bs) := by rw [hroom, fits_some, List.length_cons]; omega
        rw [write, if_pos hroom]
        simp only [ho.lasting, if_false]
        refine ⟨⟨?_, ?_, rfl, rfl⟩, fun hfits => absurd hfits hfull, fun _ => rfl⟩
        · rw [hroom]
          exact (List.append_nil _).symm
        · rw [hroom, roomAfter, Option.map_some, Nat.zero_sub]
      · obtain ⟨k, hk⟩ := Nat.exists_eq_succ_of_ne_zero (Nat.ne_of_gt (limit_pos ho hroom))
        have hfront := takes_accept (fits_take_limit o (b :: bs))
        have hrest : ((b :: bs).drop ((b :: bs).take o.limit).length).length ≤ calls := by
          rw [hk, List.take_succ_cons, List.length_drop]
          simp only [List.length_cons] at hcalls ⊢
          omega
        have hall := hfront.append (ih (hfront.accepting ho) hrest)
        rw [take_append_drop_length] at hall
        rw [write_eq hroom]
        rw [hk, List.take_succ_cons] at hall ⊢
        exact hall

theorem takes_writeAll (ho : o.Accepting) (bs : Bytes) :
    Takes bs o (o.writeAll bs).1 (o.writeAll bs).2 := takes_offer ho (Nat.le_refl _)

end

/-! ## Pieces -/

section

variable {o : Outlet}

/-- Writing what is left after some bytes, if these were written well. -/
theorem Takes.andThen {bs cs : Bytes} {write next : Outlet → Except Failure Unit × Outlet}
    (h : Takes bs o (write o).1 (write o).2)
    (hnext : Takes cs (write o).2 (next (write o).2).1 (next (write o).2).2) :
    let run := match write o with
      | (.ok (), o) => next o
      | (.error e, o) => (.error e, o)
    Takes (bs ++ cs) o run.1 run.2 := by
  generalize write o = result at *
  obtain ⟨r, o'⟩ := result
  cases r with
  | ok => exact h.append hnext
  | error e => exact h.append_of_error cs

/-- Marker and number are taken as if they were written together, also where they are not. -/
theorem takes_writePiece (ho : o.Accepting) (piece : Piece) :
    Takes piece.bytes o (writePiece piece o).1 (writePiece piece o).2 := by
  unfold writePiece
  split
  case h_1 bs => exact takes_writeAll ho bs
  case h_2 marker n =>
    have hmarker := takes_writeAll ho [marker]
    exact hmarker.andThen (takes_writeAll (hmarker.accepting ho) (bigEndian 8 n))
  case h_3 marker width n _ => exact takes_writeAll ho _

/-- Pieces are taken as if their bytes were written at once. -/
theorem takes_writePieces (ho : o.Accepting) (pieces : List Piece) :
    Takes (pieces.flatMap Piece.bytes) o (writePieces pieces o).1 (writePieces pieces o).2 := by
  induction pieces generalizing o with
  | nil => exact .nil o
  | cons piece pieces ih =>
    have hpiece := takes_writePiece ho piece
    exact hpiece.andThen (ih (hpiece.accepting ho))

/-- An emission is written like its bytes. If there is room for them, it ends as it does in a
buffer, and if not, with the failure of the outlet. -/
theorem takes_emit (ho : o.Accepting) (e : Emission) :
    Took e.bytes o (o.emit e).2 ∧
      (Fits o.room e.bytes → (o.emit e).1 = e.status.mapError .lengthOverflow) ∧
      (¬Fits o.room e.bytes → (o.emit e).1 = .error (.io o.failure)) := by
  have h : Takes e.bytes o _ _ := takes_writePieces ho e.pieces.reverse
  unfold emit
  generalize writePieces e.pieces.reverse o = result at *
  obtain ⟨r, o'⟩ := result
  refine ⟨?_, fun hfits => ?_, fun hfull => ?_⟩
  · cases r <;> exact h.toTook
  · cases h.ok_of_fits hfits
    rfl
  · cases h.error_of_not_fits hfull
    rfl

end

end Outlet

/-! ## Steps one after the other -/

/-- The bytes that steps add. -/
def EncoderStep.bytesOf (steps : List EncoderStep) : Bytes :=
  steps.flatMap fun step => step.emission.bytes

namespace OutputBuffer

/-- The buffer after steps, those that end with a length overflow included. -/
def after (w : OutputBuffer) (steps : List EncoderStep) : OutputBuffer :=
  steps.foldl (fun w step => (w.emit step.emission).2) w

theorem putPiece_eq (piece : Piece) (w : OutputBuffer) : w.putPiece piece = w.put piece.bytes := by
  cases piece <;> rfl

theorem pending_emit (w : OutputBuffer) (e : Emission) :
    (w.emit e).2.pending = w.pending ++ e.bytes := by
  simp only [emit, Emission.bytes]
  induction e.pieces.reverse generalizing w with
  | nil => exact (List.append_nil _).symm
  | cons piece pieces ih =>
    rw [List.foldl_cons, ih, putPiece_eq, pending_put, List.flatMap_cons, List.append_assoc]

/-- A buffer collects what the steps add. -/
theorem pending_after (w : OutputBuffer) (steps : List EncoderStep) :
    (w.after steps).pending = w.pending ++ EncoderStep.bytesOf steps := by
  unfold after EncoderStep.bytesOf
  induction steps generalizing w with
  | nil => exact (List.append_nil _).symm
  | cons step steps ih =>
    rw [List.foldl_cons, ih, pending_emit, List.flatMap_cons, List.append_assoc]

end OutputBuffer

namespace Outlet

/-- The outlet after steps, those that fail included. -/
def after (o : Outlet) (steps : List EncoderStep) : Outlet :=
  steps.foldl (fun o step => (o.emit step.emission).2) o

/-- An outlet takes the first of the bytes that the steps add. -/
theorem took_after {o : Outlet} (ho : o.Accepting) (steps : List EncoderStep) :
    Took (EncoderStep.bytesOf steps) o (o.after steps) := by
  unfold after EncoderStep.bytesOf
  induction steps generalizing o with
  | nil => exact .nil o
  | cons step steps ih =>
    have hstep := (takes_emit ho step.emission).1
    exact hstep.append (ih (hstep.accepting ho))

/-- An outlet that has taken nothing so far. -/
def fresh (room : Option Nat) (burst : Nat → Nat) (failure : Failure) : Outlet :=
  ⟨room, burst, failure, [], 0⟩

/-- Whatever steps an encoder makes, an outlet has taken the first bytes of what a buffer collects
from the same steps, as many as there is room for. A step ends on the outlet as it does on the
buffer as long as there is room for everything, and the first step that needs more room ends with
the failure of the outlet. A value is written whole if and only if it can be encoded and its
encoding fits. -/
theorem emits_up_to_room (allocation : Nat) (room : Option Nat) {burst : Nat → Nat}
    (hburst : ∀ taken, 0 < burst taken) {failure : Failure}
    (hfailure : failure.kind ≠ .interrupted) (steps : List EncoderStep) :
    let w := (OutputBuffer.ofAllocation allocation).after steps
    let o := (fresh room burst failure).after steps
    o.bytes = upTo room w.pending ∧
    (∀ step : EncoderStep,
      (Fits room (w.emit step.emission).2.pending →
        (o.emit step.emission).1 = (w.emit step.emission).1.mapError .lengthOverflow) ∧
      (Fits room w.pending → ¬Fits room (w.emit step.emission).2.pending →
        (o.emit step.emission).1 = .error (.io failure))) ∧
    ∀ v : Value,
      (∀ bs, MessagePack.encode v = .ok bs →
        ((fresh room burst failure).encode v).2.bytes = upTo room bs) ∧
      (((fresh room burst failure).encode v).1 = .ok () ↔
        ∃ bs, MessagePack.encode v = .ok bs ∧ Fits room bs) := by
  intro w o
  have hfresh : (fresh room burst failure).Accepting := ⟨hburst, hfailure⟩
  have htook : Took (EncoderStep.bytesOf steps) (fresh room burst failure) o :=
    took_after hfresh steps
  have hpending : w.pending = EncoderStep.bytesOf steps := OutputBuffer.pending_after _ steps
  refine ⟨?_, fun step => ?_, fun v => ?_⟩
  · rw [htook.bytes_eq, hpending]
    rfl
  · have hpending' := OutputBuffer.pending_emit w step.emission
    obtain ⟨-, hok, herror⟩ := takes_emit (htook.accepting hfresh) step.emission
    have hroom : o.room = roomAfter room w.pending := by rw [htook.room_eq, hpending]; rfl
    rw [hroom] at hok herror
    rw [htook.failure_eq] at herror
    rw [hpending', fits_append]
    exact ⟨fun hfits => hok hfits.2, fun hfits hfull => herror fun hmore => hfull ⟨hfits, hmore⟩⟩
  · obtain ⟨htook, hok, herror⟩ := takes_emit hfresh (Emission.ofValue v)
    simp only [encode_eq_ok_iff]
    refine ⟨?_, fun hr => ?_, ?_⟩
    · rintro bs ⟨-, rfl⟩
      exact htook.bytes_eq
    · by_cases hfits : Fits room (Emission.ofValue v).bytes
      · have hstatus := (hok hfits).symm.trans hr
        cases hv : (Emission.ofValue v).status with
        | ok => exact ⟨_, ⟨rfl, rfl⟩, hfits⟩
        | error overflow =>
          rw [hv] at hstatus
          cases hstatus
      · cases (herror hfits).symm.trans hr
    · rintro ⟨bs, ⟨hstatus, rfl⟩, hfits⟩
      refine (hok hfits).trans ?_
      rw [hstatus]
      rfl

/-- An integer of nine bytes and a header of a length that is too long. -/
def begun : List EncoderStep := [.unsigned 0x10000000000, .stringHeader 0x100000000]

/-- An array of a binary, seven bytes in all. -/
def cutShort : EncoderStep := .value (.array [.binary [1, 2, 3, 4]])

/-- An outlet with room for three of the last seven bytes takes these, and the step that wrote them
fails. -/
theorem emits_up_to_room_cut :
    (∀ taken, 0 < taken % 3 + 1) ∧ (default : Failure).kind ≠ .interrupted ∧
      ((fresh (some 12) (· % 3 + 1) default).after (begun ++ [cutShort])).bytes =
        [0xcf, 0, 0, 1, 0, 0, 0, 0, 0, 0x91, 0xc4, 4] ∧
      (((fresh (some 12) (· % 3 + 1) default).after begun).emit cutShort.emission).1 =
        .error (.io default) := by
  have hburst : ∀ taken, 0 < taken % 3 + 1 := fun taken => Nat.succ_pos _
  have hfailure : (default : Failure).kind ≠ .interrupted := by decide
  obtain ⟨hbytes, -⟩ := emits_up_to_room 16 (some 12) hburst hfailure (begun ++ [cutShort])
  obtain ⟨-, hstep, -⟩ := emits_up_to_room 16 (some 12) hburst hfailure begun
  exact ⟨hburst, hfailure, hbytes.trans (by decide +kernel),
    (hstep cutShort).2 (by decide +kernel) (by decide +kernel)⟩

end Outlet

end MessagePack
