import MessagePack.Json.Basic

/-!
# Reading JSON

A strict reader of JSON text: no comments, no trailing commas, no leading zeros, white space is
space, tab, line feed and carriage return, and escapes of lone surrogates are refused. Arrays and
objects nest at most 127 deep. Of members with the same name the last one counts.

* `Json.parse?`: the document that a text is, if it is one.
* `Json.Parser`: what reads one part of a text and leaves the rest.
-/

namespace MessagePack.Json

/-- Reads something at the beginning of a text and returns it with the rest. -/
abbrev Parser (α : Type) := List Char → Option (α × List Char)

/-- The white space of JSON. -/
def isSpace (c : Char) : Bool := c == ' ' || c == '\t' || c == '\n' || c == '\r'

/-- The text from its first character that is not white space on. -/
def skipSpace (cs : List Char) : List Char := cs.dropWhile isSpace

/-! ## Numbers -/

/-- The digits at the beginning of a text, perhaps none. -/
def readDigits (cs : List Char) : List Nat × List Char :=
  ((cs.takeWhile Char.isDigit).map fun c => c.toNat - '0'.toNat, cs.dropWhile Char.isDigit)

/-- At least one digit. -/
def readDigits1 : Parser (List Nat) := fun cs =>
  match readDigits cs with
  | ([], _) => none
  | found => some found

/-- The digits before the point: a single zero, or digits that do not begin with zero. -/
def readWhole : Parser (List Nat) := fun cs =>
  match readDigits1 cs with
  | some (0 :: _ :: _, _) => none
  | found => found

/-- A point and the digits after it, if there is a point. -/
def readFraction : Parser (Option (List Nat))
  | '.' :: cs => (readDigits1 cs).map fun (ds, cs) => (some ds, cs)
  | cs => some (none, cs)

/-- The sign and the digits of an exponent. -/
def readSignedDigits : Parser (Bool × List Nat)
  | '-' :: cs => (readDigits1 cs).map fun (ds, cs) => ((true, ds), cs)
  | '+' :: cs => (readDigits1 cs).map fun (ds, cs) => ((false, ds), cs)
  | cs => (readDigits1 cs).map fun (ds, cs) => ((false, ds), cs)

/-- A written exponent, if there is one. -/
def readExponent : Parser (Option (Bool × List Nat))
  | 'e' :: cs | 'E' :: cs => (readSignedDigits cs).map fun (e, cs) => (some e, cs)
  | cs => some (none, cs)

/-- The parts of a number after its sign. -/
def readUnsigned (negative : Bool) : Parser NumberText := fun cs => do
  let (whole, cs) ← readWhole cs
  let (fraction, cs) ← readFraction cs
  let (exponent, cs) ← readExponent cs
  some (⟨negative, whole, fraction, exponent⟩, cs)

/-- The parts of a number. -/
def readNumberText : Parser NumberText
  | '-' :: cs => readUnsigned true cs
  | cs => readUnsigned false cs

/-- A number that is in range. -/
def readNumber : Parser Json := fun cs => do
  let (text, cs) ← readNumberText cs
  let n ← text.value?
  some (.number n, cs)

/-! ## Strings -/

/-- The value of a hexadecimal digit. -/
def hexDigit? (c : Char) : Option Nat :=
  if c.isDigit then some (c.toNat - '0'.toNat)
  else if 'a' ≤ c ∧ c ≤ 'f' then some (c.toNat - 'a'.toNat + 10)
  else if 'A' ≤ c ∧ c ≤ 'F' then some (c.toNat - 'A'.toNat + 10)
  else none

/-- The number that four hexadecimal digits spell. -/
def hexQuad? (a b c d : Char) : Option Nat := do
  some ((((← hexDigit? a) * 16 + (← hexDigit? b)) * 16 + (← hexDigit? c)) * 16 + (← hexDigit? d))

/-- The character that follows a backslash stands for. -/
def shortEscape? : Char → Option Char
  | '"' => some '"'
  | '\\' => some '\\'
  | '/' => some '/'
  | 'b' => some '\x08'
  | 'f' => some '\x0c'
  | 'n' => some '\n'
  | 'r' => some '\r'
  | 't' => some '\t'
  | _ => none

/-- The character of a code unit that is no surrogate. -/
def unitChar? (unit : Nat) : Option Char :=
  if 0xd800 ≤ unit ∧ unit < 0xe000 then none else some (Char.ofNat unit)

/-- The character of a leading and a trailing surrogate. -/
def pairChar? (lead trail : Nat) : Option Char :=
  if 0xd800 ≤ lead ∧ lead < 0xdc00 ∧ 0xdc00 ≤ trail ∧ trail < 0xe000 then
    some (Char.ofNat (0x10000 + (lead - 0xd800) * 0x400 + (trail - 0xdc00)))
  else none

/-- Reads a string up to its closing quote, after the characters in `seen`, latest first. -/
def readStringTail (seen : List Char) : Parser String
  | [] => none
  | '"' :: cs => some (String.ofList seen.reverse, cs)
  | '\\' :: 'u' :: a :: b :: c :: d :: cs =>
    match hexQuad? a b c d with
    | none => none
    | some unit =>
      match unitChar? unit with
      | some char => readStringTail (char :: seen) cs
      | none =>
        match cs with
        | '\\' :: 'u' :: a :: b :: c :: d :: cs =>
          match (hexQuad? a b c d).bind (pairChar? unit) with
          | some char => readStringTail (char :: seen) cs
          | none => none
        | _ => none
  | '\\' :: c :: cs =>
    match shortEscape? c with
    | some char => readStringTail (char :: seen) cs
    | none => none
  | c :: cs => if c == '\\' || c.toNat < 0x20 then none else readStringTail (c :: seen) cs

/-! ## Documents -/

/-- The items of an array up to its closing bracket, after those in `seen`, latest first. Each
turn reads at least one character, so as many turns as there are characters are enough. -/
def readItems (item : Parser Json) : Nat → List Json → Parser (List Json)
  | 0, _, _ => none
  | turns + 1, seen, cs =>
    match item cs with
    | none => none
    | some (j, cs) =>
      match skipSpace cs with
      | ',' :: cs => readItems item turns (j :: seen) cs
      | ']' :: cs => some ((j :: seen).reverse, cs)
      | _ => none

/-- A member of an object: its name, a colon and the document under it. -/
def readMember (item : Parser Json) : Parser (String × Json) := fun cs =>
  match skipSpace cs with
  | '"' :: cs =>
    match readStringTail [] cs with
    | none => none
    | some (name, cs) =>
      match skipSpace cs with
      | ':' :: cs => (item cs).map fun (j, cs) => ((name, j), cs)
      | _ => none
  | _ => none

/-- The members of an object up to its closing brace, after those in `seen`, latest first. -/
def readMembers (item : Parser Json) : Nat → List (String × Json) → Parser (List (String × Json))
  | 0, _, _ => none
  | turns + 1, seen, cs =>
    match readMember item cs with
    | none => none
    | some (m, cs) =>
      match skipSpace cs with
      | ',' :: cs => readMembers item turns (m :: seen) cs
      | '\x7d' :: cs => some ((m :: seen).reverse, cs)
      | _ => none

/-- An array after its opening bracket. -/
def readArrayTail (item : Parser Json) (turns : Nat) : Parser Json := fun cs =>
  match skipSpace cs with
  | ']' :: cs => some (.array [], cs)
  | cs => (readItems item turns [] cs).map fun (items, cs) => (.array items, cs)

/-- An object after its opening brace. -/
def readObjectTail (item : Parser Json) (turns : Nat) : Parser Json := fun cs =>
  match skipSpace cs with
  | '\x7d' :: cs => some (.object [], cs)
  | cs => (readMembers item turns [] cs).map fun (members, cs) => (.ofMembers members, cs)

/-- A document that is neither an array nor an object. -/
def readScalar : Parser Json
  | 'n' :: 'u' :: 'l' :: 'l' :: cs => some (.null, cs)
  | 't' :: 'r' :: 'u' :: 'e' :: cs => some (.bool true, cs)
  | 'f' :: 'a' :: 'l' :: 's' :: 'e' :: cs => some (.bool false, cs)
  | '"' :: cs => (readStringTail [] cs).map fun (s, cs) => (.string s, cs)
  | cs => readNumber cs

/-- A document in which arrays and objects nest at most `levels` deep. As many turns as there are
characters are enough, and further ones change nothing (`readDocument_of_length_le`). -/
def readDocument (turns : Nat) : (levels : Nat) → Parser Json
  | 0, cs =>
    match skipSpace cs with
    | '[' :: _ | '\x7b' :: _ => none
    | cs => readScalar cs
  | levels + 1, cs =>
    match skipSpace cs with
    | '[' :: cs => readArrayTail (readDocument turns levels) turns cs
    | '\x7b' :: cs => readObjectTail (readDocument turns levels) turns cs
    | cs => readScalar cs

/-- The deepest nesting of arrays and objects. -/
def maxNesting : Nat := 127

/-- The document that a text is, with white space around it. -/
def parse? (text : String) : Option Json :=
  let cs := text.toList
  match readDocument cs.length maxNesting cs with
  | some (j, rest) => if (skipSpace rest).isEmpty then some j else none
  | none => none

end MessagePack.Json
