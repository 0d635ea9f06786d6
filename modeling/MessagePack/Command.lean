import MessagePack.Document
import MessagePack.Text.Utf8

/-!
# The commands

What packing and unpacking do with their arguments and their standard input.

* `Command.pack`: one JSON document in, its encoding out.
* `Command.unpack`: encoded values in, one JSON document a line out.
-/

namespace MessagePack.Command

/-- How a command ends: its exit code and what it prints. -/
structure Outcome where
  code : UInt8
  output : Bytes
  errors : String

/-- A success with its output. -/
def success (output : Bytes) : Outcome := ⟨0, output, ""⟩

/-- A failure with a message. -/
def failure (message : String) : Outcome := ⟨1, [], message ++ "\n"⟩

/-- Encodes the JSON document on standard input, white space around it aside. -/
def pack (input : Bytes) : Outcome :=
  match Text.decode? input with
  | none => failure "stream did not contain valid UTF-8"
  | some text =>
    match MessagePack.pack (Text.trim text) with
    | .ok bs => success bs
    | .error e => failure e.message

/-- Whether the arguments of `unpack` ask for indented documents, or the first that it does not
know. -/
def unpackOptions (pretty : Bool) : List String → Except String Bool
  | [] => .ok pretty
  | arg :: args => if arg == "--pretty" || arg == "-p" then unpackOptions true args else .error arg

/-- Renders the encoded values on standard input as JSON documents. -/
def unpack (args : List String) (input : Bytes) : Outcome :=
  match unpackOptions false args with
  | .error arg => ⟨2, [], "unknown argument: " ++ arg ++ "\nusage: mpack-unpack [--pretty]\n"⟩
  | .ok pretty =>
    match MessagePack.unpack input pretty with
    | .ok text => success (utf8 text)
    | .error e => failure e.message

end MessagePack.Command
