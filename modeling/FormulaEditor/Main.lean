import FormulaEditor.CommandLine

/-!
# The program
-/

open FormulaEditor.CommandLine

/-- The content of a file, if there is one. -/
def readFile? (path : String) : IO (Option ByteArray) := do
  try
    let bytes ← IO.FS.readBinFile path
    return some bytes
  catch _ => return none

/-- Everything on a stream, after what was read of it. -/
partial def readAll (stream : IO.FS.Stream) (bytes : ByteArray) : IO ByteArray := do
  let chunk ← stream.read 65536
  if chunk.isEmpty then return bytes else readAll stream (bytes ++ chunk)

/-- Reads what the request needs, runs it and prints the outcome. -/
def main (arguments : List String) : IO UInt32 := do
  let (file, stdin) ← match readArguments? arguments with
    | some (.print _ (some argument)) => do
      let file ← readFile? argument
      pure (file, ByteArray.empty)
    | some (.print _ none) => do
      let bytes ← readAll (← IO.getStdin) ByteArray.empty
      pure (none, bytes)
    | _ => pure (none, ByteArray.empty)
  let outcome := run (fun _ => file) stdin arguments
  IO.print outcome.out
  IO.eprint outcome.err
  return outcome.code.toUInt32
