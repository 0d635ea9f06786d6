import MessagePack.Command

/-!
# Command line

The first argument names the command; the rest are its arguments.
-/

namespace MessagePack.Command

/-- All of standard input. -/
def readInput : IO Bytes := do
  let bytes ← (← IO.getStdin).readBinToEnd
  return bytes.data.toList

/-- Prints what a command prints and returns its exit code. -/
def Outcome.finish (outcome : Outcome) : IO UInt32 := do
  let stdout ← IO.getStdout
  stdout.write ⟨outcome.output.toArray⟩
  stdout.flush
  IO.eprint outcome.errors
  return outcome.code.toUInt32

end MessagePack.Command

open MessagePack

/-- Runs the command that the first argument names. -/
def main : List String → IO UInt32
  | "pack" :: _ => do (Command.pack (← Command.readInput)).finish
  | "unpack" :: args => do (Command.unpack args (← Command.readInput)).finish
  | _ => do
    IO.eprintln "usage: pack | unpack [--pretty]"
    return 2
