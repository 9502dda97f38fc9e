import RegexAudit.CommandLine

/-!
# The program

Reads the arguments and, if it is needed, the standard input, and writes what the run gives.
-/

open RegexAudit

/-- All bytes of a stream. -/
partial def readBytes (stream : IO.FS.Stream) (bytes : ByteArray) : IO ByteArray := do
  let chunk ← stream.read 65536
  if chunk.isEmpty then return bytes
  readBytes stream (bytes ++ chunk)

def main (args : List String) : IO UInt32 := do
  match CommandLine.Options.ofArgs? args {} with
  | none =>
    (← IO.getStderr).putStrLn "unexpected argument"
    return 2
  | some options =>
    let input ←
      if CommandLine.readsInput options then readBytes (← IO.getStdin) ByteArray.empty
      else pure ByteArray.empty
    let outcome := CommandLine.run options input
    (← IO.getStdout).putStr outcome.out
    (← IO.getStderr).putStr outcome.err
    return outcome.code.toUInt32
