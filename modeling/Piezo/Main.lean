import Piezo.Cli.Program

/-!
The command line program.

The response is worked out first, as if any file could be created. Only if it has a file to write
and that fails, it is worked out again with this known.
-/

namespace Piezo.Cli

/-- Why a file could not be read, in the words of the operating system and with its number. -/
def reasonOf (error : IO.Error) : String :=
  let numbered (number : UInt32) (words : String) :=
    words ++ " (os error " ++ Text.Decimal.text number.toNat ++ ")"
  match error with
  | .noFileOrDirectory _ number words => numbered number words
  | .inappropriateType _ number words => numbered number words
  | .permissionDenied _ number words => numbered number words
  | .invalidArgument _ number words => numbered number words
  | error => toString error

def readNeeded (path : Option String) : IO (Except String (List UInt8)) := do
  match path with
  | none => return .error ""
  | some path =>
    try
      return .ok (← IO.FS.readBinFile path).toList
    catch error =>
      return .error (reasonOf error)

def run (args : List String) : IO UInt32 := do
  let content ← readNeeded (Options.read args).neededConfig
  let respondIf (canCreate : Bool) := respond ⟨fun _ => content, fun _ => canCreate⟩ args
  let mut response := respondIf true
  if let some (path, bytes) := response.written then
    try
      IO.FS.writeBinFile path bytes
    catch _ =>
      response := respondIf false
  IO.print response.stdout
  IO.eprint response.stderr
  return response.code

end Piezo.Cli

def main (args : List String) : IO UInt32 := Piezo.Cli.run args
