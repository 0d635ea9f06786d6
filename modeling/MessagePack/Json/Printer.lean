import MessagePack.Json.Basic
import MessagePack.Number.Decimal

/-!
# Writing JSON

The text of a JSON document: compact, without any white space, or indented by two spaces a level.
Strings escape the quote, the backslash and characters below U+0020, and nothing else.

* `Json.text`: the text of a document in a layout.
* `writtenFloats`: how floats are written.
-/

namespace MessagePack

/-- JSON writes magnitudes from `1e-5` up to `1e16` positionally, gives positive exponents a sign,
and takes the decimal with an even last digit of two equally near ones. -/
def writtenFloats : DecimalLayout := ⟨-5, 16, true, .toEven⟩

/-- The text of a number. -/
def JsonNumber.text : JsonNumber → List Char
  | unsigned n => Nat.toDigits 10 n.toNat
  | negative i => '-' :: Nat.toDigits 10 i.toInt.natAbs
  | float x =>
    match x.magnitude with
    | .finite significand shift => writtenFloats.finite .binary64 x.isNegative significand shift
    | _ => ['n', 'u', 'l', 'l']

/-- How a document is laid out: without white space, or indented from a level on. -/
inductive JsonLayout where
  | compact
  | indented (level : Nat)

namespace JsonLayout

/-- The layout of the parts of an array or object. -/
def inner : JsonLayout → JsonLayout
  | compact => compact
  | indented level => indented (level + 1)

/-- What stands at the beginning of a line. -/
def lineStart : JsonLayout → List Char
  | compact => []
  | indented level => '\n' :: List.replicate (2 * level) ' '

/-- What stands before a part of an array or object in this layout. -/
def beforePart (layout : JsonLayout) (first : Bool) : List Char :=
  if first then layout.inner.lineStart else ',' :: layout.inner.lineStart

/-- What stands before a closing bracket. -/
def beforeClose (layout : JsonLayout) (empty : Bool) : List Char :=
  if empty then [] else layout.lineStart

/-- What stands between a name and its member. -/
def colon : JsonLayout → List Char
  | compact => [':']
  | indented _ => [':', ' ']

end JsonLayout

namespace Json

/-- How one character appears in a string. -/
def escapedChar (c : Char) : List Char :=
  match c with
  | '"' => ['\\', '"']
  | '\\' => ['\\', '\\']
  | '\x08' => ['\\', 'b']
  | '\x0c' => ['\\', 'f']
  | '\n' => ['\\', 'n']
  | '\r' => ['\\', 'r']
  | '\t' => ['\\', 't']
  | c =>
    if c.toNat < 0x20 then
      ['\\', 'u', '0', '0', Nat.digitChar (c.toNat / 16), Nat.digitChar (c.toNat % 16)]
    else [c]

/-- A string with its quotes. -/
def stringText (s : String) : List Char := '"' :: s.toList.flatMap escapedChar ++ ['"']

/-- Puts text onto an output that is kept latest character first. -/
def put (text out : List Char) : List Char := text.reverseAux out

mutual

/-- Puts the text of a document onto the output. -/
def putDocument (layout : JsonLayout) : Json → List Char → List Char
  | null, out => put ['n', 'u', 'l', 'l'] out
  | bool b, out => put (if b then ['t', 'r', 'u', 'e'] else ['f', 'a', 'l', 's', 'e']) out
  | number n, out => put n.text out
  | string s, out => put (stringText s) out
  | array items, out =>
    ']' :: put (layout.beforeClose items.isEmpty) (putItems layout true items ('[' :: out))
  | object members, out =>
    '\x7d' ::
      put (layout.beforeClose members.isEmpty) (putMembers layout true members ('\x7b' :: out))

/-- Puts the items of an array onto the output. -/
def putItems (layout : JsonLayout) (first : Bool) : List Json → List Char → List Char
  | [], out => out
  | j :: js, out =>
    putItems layout false js (putDocument layout.inner j (put (layout.beforePart first) out))

/-- Puts the members of an object onto the output. -/
def putMembers (layout : JsonLayout) (first : Bool) : List (String × Json) → List Char → List Char
  | [], out => out
  | (name, j) :: ms, out =>
    putMembers layout false ms
      (putDocument layout.inner j
        (put layout.colon (put (stringText name) (put (layout.beforePart first) out))))

end

/-- The characters of a document in a layout. -/
def chars (j : Json) (layout : JsonLayout) : List Char := (putDocument layout j []).reverse

/-- The text of a document, compact or indented. -/
def text (j : Json) (pretty : Bool) : String :=
  String.ofList (j.chars (if pretty then .indented 0 else .compact))

end Json

end MessagePack
