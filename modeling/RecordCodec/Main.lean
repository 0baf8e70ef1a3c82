import RecordCodec.CommandLine.Run

/-!
# The program

Runs a command on the files of the system, prints its text and turns the
outcome into an exit code: one for a failure, two for misuse, and a code of its
own where the program stops.  A program with libraries of its choice is made by
`Program.main`.
-/

namespace RecordCodec.Program

open CommandLine

/-- The files of the system. -/
def systemFiles : Files IO where
  read path := do
    try
      return some (← IO.FS.readBinFile path)
    catch _ => return none
  write path bytes := do
    try
      IO.FS.writeBinFile path bytes
      return true
    catch _ => return false

def usage : String :=
  "usage: record-codec schema SCHEMA [--type TYPE] [--json]\n" ++
    "       record-codec decode SCHEMA --type TYPE INPUT [--offset N] [--hex]\n" ++
    "                           [--strict-padding] [--raw-chars]\n" ++
    "       record-codec encode SCHEMA --type TYPE VALUE [--out FILE]"

/-- Runs the command in the arguments. -/
def main (libraries : Libraries) (arguments : List String) : IO UInt32 := do
  match ← run libraries systemFiles arguments with
  | .printed text =>
      IO.print text
      return 0
  | .failed error =>
      IO.eprintln ("error: " ++ error.message)
      return 1
  | .stopped cause =>
      IO.eprintln cause.message
      return 101
  | .misused =>
      IO.eprintln usage
      return 2

end RecordCodec.Program
