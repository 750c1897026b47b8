import EcmaScript.CommandLine

/-!
# The program

Reads the arguments and the standard input, and writes what `EcmaScript.Request.answer` says.
-/

/-- Writes the answer to its streams, and gives its exit code. -/
def main (arguments : List String) : IO UInt32 := do
  let request := EcmaScript.Request.ofArguments arguments
  let input ← if request.readsInput then (← IO.getStdin).readBinToEnd else pure ByteArray.empty
  let outcome := request.answer input
  for line in outcome.stderr do
    IO.eprintln line
  let out ← IO.getStdout
  out.putStr outcome.stdout
  out.flush
  return outcome.exitCode.toUInt32
