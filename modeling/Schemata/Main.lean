import Schemata.CommandLine
/-!
# The command line program

Reads the files that a request may look at and the environment variables, and prints its report.
-/
namespace Schemata

/-- The text of a file, if it can be read. -/
def readText (name : String) : IO (Option String) := do
  try return some (← IO.FS.readFile name) catch _ => return none

/-- The environment variables, each with its value, from a text in which every one ends with a null character. -/
def environmentOf (text : String) : List (String × String) :=
  (text.splitOn "\x00").filterMap fun setting =>
    match setting.toList.span (· != '=') with
    | (name, '=' :: value) => some (String.ofList name, String.ofList value)
    | _ => none

end Schemata

open Schemata in
def main (arguments : List String) : IO UInt32 := do
  let environment := environmentOf ((← readText "/proc/self/environ").getD "")
  let names := ((Request.ofArguments? arguments).map (·.files environment)).getD []
  let files ← names.mapM fun name => return (name, ← readText name)
  let read : String → Option String := fun name => (files.lookup name).join
  let result := report read environment arguments
  IO.print result.output
  IO.eprint result.errors
  return result.code.toUInt32
