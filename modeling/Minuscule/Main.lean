import Minuscule.CommandLine

/-!
The program: it reads the file that the command line names and prints what the run reports.
-/

namespace Minuscule.CommandLine

def readFile (name : String) : IO (Except ReadError String) := do
  try
    return decode (← IO.FS.readBinFile name)
  catch
    | .noFileOrDirectory .. => return .error .missing
    | error => return .error (.other (toString error))

def execute (arguments : List String) : IO Report :=
  match options? arguments with
  | some (options, name) => return fromFile options name (← readFile name)
  | none => return usage

end Minuscule.CommandLine

def main (arguments : List String) : IO UInt32 := do
  let report ← Minuscule.CommandLine.execute arguments
  IO.print report.out
  IO.eprint report.err
  return report.exitCode.toUInt32
