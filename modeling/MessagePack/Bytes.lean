/-!
# Byte strings

Byte strings, their big-endian reading as numbers, and reading from them. A read of more bytes than
are left fails and takes nothing.
-/

namespace MessagePack

-- Inside the library, powers are those of the core library, also next to other instances.
attribute [scoped instance (high + 1)] instPowNat

/-- A byte string. -/
abbrev Bytes := List UInt8

/-- The `width` low bytes of `n`, most significant first. -/
def bigEndian : (width n : Nat) → Bytes
  | 0, _ => []
  | width + 1, n => UInt8.ofNat (n / 256 ^ width) :: bigEndian width n

/-- The number whose base-256 digits are the bytes, most significant first. -/
def ofBigEndian (bs : Bytes) : Nat := bs.foldl (fun n b => 256 * n + b.toNat) 0

/-- The first `n` bytes and the bytes after them, or the length when it is below `n`. Only `n`
bytes are looked at, so a long rest costs nothing. -/
def splitFront (n : Nat) (bs : Bytes) : Except Nat (Bytes × Bytes) :=
  let front := bs.take n
  if front.length = n then .ok (front, bs.drop n) else .error front.length

/-- What holds of the bytes of all numbers below 256 holds of every byte. -/
theorem forall_byte {P : UInt8 → Prop} (h : ∀ n < 256, P (UInt8.ofNat n)) (b : UInt8) : P b := by
  have hb := h b.toNat b.toNat_lt
  rwa [UInt8.ofNat_toNat] at hb

@[simp] theorem length_bigEndian (width n : Nat) : (bigEndian width n).length = width := by
  induction width with
  | zero => rfl
  | succ width ih => simp [bigEndian, ih]

/-- Reading goes on with a number where its big-endian bytes begin. -/
theorem foldl_bigEndian (width n m : Nat) :
    (bigEndian width n).foldl (fun n b => 256 * n + b.toNat) m =
      m * 256 ^ width + n % 256 ^ width := by
  induction width generalizing m with
  | zero => simp [bigEndian, Nat.mod_one]
  | succ width ih =>
    rw [bigEndian, List.foldl_cons, ih, Nat.mod_pow_succ, UInt8.toNat_ofNat', Nat.pow_succ]
    grind

/-- Big-endian bytes read back as the number, as far as the width goes. -/
theorem ofBigEndian_bigEndian (width n : Nat) :
    ofBigEndian (bigEndian width n) = n % 256 ^ width := by
  simp [ofBigEndian, foldl_bigEndian]

theorem ofBigEndian_cons (b : UInt8) (bs : Bytes) :
    ofBigEndian (b :: bs) = b.toNat * 256 ^ bs.length + ofBigEndian bs := by
  have hfoldl : ∀ m, bs.foldl (fun n b => 256 * n + b.toNat) m =
      m * 256 ^ bs.length + ofBigEndian bs := by
    unfold ofBigEndian
    induction bs with
    | nil => simp
    | cons c bs ih =>
      intro m
      rw [List.foldl_cons, List.foldl_cons, ih, ih (256 * 0 + c.toNat), List.length_cons,
        Nat.pow_succ]
      grind
  rw [ofBigEndian, List.foldl_cons, hfoldl]
  simp

/-- Bytes spell a number that as many bytes can hold. -/
theorem ofBigEndian_lt (bs : Bytes) : ofBigEndian bs < 256 ^ bs.length := by
  induction bs with
  | nil => exact Nat.one_pos
  | cons b bs ih =>
    have hb : b.toNat + 1 ≤ 256 := b.toNat_lt
    have hle : (b.toNat + 1) * 256 ^ bs.length ≤ 256 * 256 ^ bs.length := Nat.mul_le_mul_right _ hb
    rw [ofBigEndian_cons, List.length_cons, Nat.pow_succ]
    rw [Nat.add_mul] at hle
    omega

/-- What lies above the width is not written. -/
theorem bigEndian_mul_add (width m n : Nat) :
    bigEndian width (m * 256 ^ width + n) = bigEndian width n := by
  induction width generalizing m with
  | zero => rfl
  | succ width ih =>
    have hshift : m * 256 ^ (width + 1) + n = n + 256 * m * 256 ^ width := by grind
    have hbyte : UInt8.ofNat ((m * 256 ^ (width + 1) + n) / 256 ^ width) =
        UInt8.ofNat (n / 256 ^ width) := by
      rw [hshift, Nat.add_mul_div_right _ _ (Nat.pow_pos (by decide)), ← UInt8.toNat_inj,
        UInt8.toNat_ofNat', UInt8.toNat_ofNat', Nat.add_mul_mod_self_left]
    rw [bigEndian, bigEndian, hbyte, hshift, Nat.add_comm, ih]

/-- Bytes are the big-endian bytes of the number that they spell. -/
theorem bigEndian_ofBigEndian (bs : Bytes) : bigEndian bs.length (ofBigEndian bs) = bs := by
  induction bs with
  | nil => rfl
  | cons b bs ih =>
    have hpos : 0 < 256 ^ bs.length := Nat.pow_pos (by decide)
    rw [List.length_cons, bigEndian, ofBigEndian_cons, bigEndian_mul_add, ih, Nat.add_comm,
      Nat.add_mul_div_right _ _ hpos, Nat.div_eq_of_lt (ofBigEndian_lt bs), Nat.zero_add,
      UInt8.ofNat_toNat]

theorem splitFront_of_le {n : Nat} {bs : Bytes} (h : n ≤ bs.length) :
    splitFront n bs = .ok (bs.take n, bs.drop n) := by
  simp [splitFront, h]

theorem splitFront_of_lt {n : Nat} {bs : Bytes} (h : bs.length < n) :
    splitFront n bs = .error bs.length := by
  have hne : bs.length ≠ n := Nat.ne_of_lt h
  simp [splitFront, List.take_of_length_le (Nat.le_of_lt h), hne]

/-! ## Bounded reads -/

/-- A read of `wanted` bytes began at `offset`, where only `available` bytes were left. -/
structure ShortRead where
  offset : Nat
  wanted : Nat
  available : Nat
deriving DecidableEq, Inhabited

/-- The text of a short read. -/
def ShortRead.message (e : ShortRead) : String :=
  "end of buffer: wanted " ++ toString e.wanted ++ " byte(s) at offset " ++ toString e.offset
    ++ ", " ++ toString e.available ++ " available"

/-- The unread part of a byte string. -/
structure Slice where
  /-- The unread bytes. -/
  rest : Bytes
  /-- The number of bytes before them. -/
  offset : Nat
deriving DecidableEq, Inhabited

namespace Slice

/-- All of a byte string. -/
def ofBytes (bs : Bytes) : Slice := ⟨bs, 0⟩

/-- The number of unread bytes. -/
def size (s : Slice) : Nat := s.rest.length

/-- Takes the next `n` bytes. -/
def read (n : Nat) (s : Slice) : Except ShortRead Bytes × Slice :=
  match splitFront n s.rest with
  | .ok (front, rest) => (.ok front, ⟨rest, s.offset + n⟩)
  | .error available => (.error ⟨s.offset, n, available⟩, s)

/-- Passes over the next `n` bytes. -/
def skip (n : Nat) (s : Slice) : Except ShortRead Unit × Slice :=
  match s.read n with
  | (.ok _, s) => (.ok (), s)
  | (.error e, s) => (.error e, s)

/-- The next byte, which stays unread. -/
def peek (s : Slice) : Except ShortRead UInt8 :=
  match s.rest with
  | b :: _ => .ok b
  | [] => .error ⟨s.offset, 1, 0⟩

end Slice

end MessagePack
