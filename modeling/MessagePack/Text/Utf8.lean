import MessagePack.Bytes

/-!
# UTF-8

Decoding of bytes that may be malformed. Each longest run of bytes that could begin a character but
does not become one counts as one fault, and reading goes on with the byte after it. A fault makes
`Text.decode?` fail and gives U+FFFD in `Text.decodeLossy`.
-/

namespace MessagePack.Text

/-- Where a decoder stands between two bytes. -/
inductive Utf8State where
  | start
  /-- `left` more bytes are due, the next of them from `low` to `high`, after the bits in `code`. -/
  | inside (left : Nat) (low high : UInt8) (code : Nat)

/-- Takes the first byte of a character: the characters and faults (`none`) it settles, and the
new state. -/
def leadByte (b : UInt8) : List (Option Char) × Utf8State :=
  if b < 0x80 then ([some (Char.ofNat b.toNat)], .start)
  else if b < 0xc2 then ([none], .start)
  else if b < 0xe0 then ([], .inside 1 0x80 0xbf (b &&& 0x1f).toNat)
  else if b < 0xf0 then
    let low := if b = 0xe0 then 0xa0 else 0x80
    let high := if b = 0xed then 0x9f else 0xbf
    ([], .inside 2 low high (b &&& 0x0f).toNat)
  else if b < 0xf5 then
    let low := if b = 0xf0 then 0x90 else 0x80
    let high := if b = 0xf4 then 0x8f else 0xbf
    ([], .inside 3 low high (b &&& 0x07).toNat)
  else ([none], .start)

/-- Takes one byte: what it settles, latest first, and the new state. -/
def takeByte (state : Utf8State) (b : UInt8) : List (Option Char) × Utf8State :=
  match state with
  | .start => leadByte b
  | .inside left low high code =>
    if low ≤ b ∧ b ≤ high then
      let code := 64 * code + (b &&& 0x3f).toNat
      if left ≤ 1 then ([some (Char.ofNat code)], .start)
      else ([], .inside (left - 1) 0x80 0xbf code)
    else
      let (settled, state) := leadByte b
      (settled ++ [none], state)

/-- Decodes from a state on, after the characters and faults in `settled`, latest first. -/
def decodeFrom (state : Utf8State) (settled : List (Option Char)) : Bytes → List (Option Char)
  | [] =>
    match state with
    | .start => settled.reverse
    | .inside .. => (none :: settled).reverse
  | b :: bs =>
    let (more, state) := takeByte state b
    decodeFrom state (more ++ settled) bs

/-- The characters that the bytes spell, with `none` for each fault. -/
def decodeAll (bs : Bytes) : List (Option Char) := decodeFrom .start [] bs

/-- The text, each fault replaced by U+FFFD. -/
def decodeLossy (bs : Bytes) : String := String.ofList ((decodeAll bs).map (·.getD '\ufffd'))

/-- The text, if the bytes have no fault. -/
def decode? (bs : Bytes) : Option String :=
  let chars := decodeAll bs
  if chars.all (·.isSome) then some (String.ofList (chars.map (·.getD '\ufffd'))) else none

/-! ## White space -/

/-- Whether a character has the property White_Space. -/
def isBlank (c : Char) : Bool :=
  let n := c.val
  (0x09 ≤ n && n ≤ 0x0d) || n == 0x20 || n == 0x85 || n == 0xa0 || n == 0x1680
    || (0x2000 ≤ n && n ≤ 0x200a) || n == 0x2028 || n == 0x2029 || n == 0x202f || n == 0x205f
    || n == 0x3000

/-- The text without the white space at either end. -/
def trim (s : String) : String :=
  String.ofList ((s.toList.dropWhile isBlank).reverse.dropWhile isBlank).reverse

end MessagePack.Text
