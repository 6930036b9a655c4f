import ClauseInduction.CommandLine

/-!
# The program

Reads the file that the arguments name, prints the response and exits with its status.
-/

open ClauseInduction

def readContents (path : String) : IO (Option ByteArray) := do
  try
    return some (← IO.FS.readBinFile path)
  catch _ =>
    return none

def main (args : List String) : IO UInt32 := do
  let contents ←
    match args with
    | [] => pure none
    | file :: _ => readContents file
  let response := CommandLine.respond args fun _ => contents
  IO.eprint response.errors
  IO.print response.output
  return response.status.toUInt32
