import Pictoscript.CommandLine

/-! # The program

Reads files and standard input, and writes what the command line answers.
-/

namespace Pictoscript.CommandLine

def readFileBytes (path : String) : IO (Except Failure ByteArray) := do
  try
    return .ok (← IO.FS.readBinFile path)
  catch
    | .noFileOrDirectory .. => return .error .missingFile
    | e => return .error (.io (toString e))

def readInputBytes : IO ByteArray := do
  (← IO.getStdin).readBinToEnd

end Pictoscript.CommandLine

def main (args : List String) : IO UInt32 := do
  let output ← Pictoscript.CommandLine.answer
    ⟨Pictoscript.CommandLine.readFileBytes, Pictoscript.CommandLine.readInputBytes⟩ args
  IO.print output.stdout
  IO.eprint output.stderr
  return output.code
