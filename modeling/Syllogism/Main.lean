import Std.Time.DateTime
import Syllogism.CommandLine

/-! The program: reads the files that a request names, carries it out and prints the result. -/
namespace Syllogism.CommandLine

def Failure.message : Failure → String
  | .unreadableFile => "IO error: a file cannot be read"
  | .settings fault => fault.message
  | .json (.text .cut) => "Serialization error: the text ends too early"
  | .json (.text .malformed) => "Serialization error: the text is malformed"
  | .json (.data m) => "Serialization error: " ++ m.message
  | .proving e => e.message

def now : IO Instant := do
  let t ← Std.Time.Timestamp.now
  return .ofNanoseconds t.toNanosecondsSinceUnixEpoch.toInt

def load (names : List String) : IO Files :=
  names.filterMapM fun (name : String) => do
    try
      let bytes ← IO.FS.readBinFile name
      return some (name, bytes)
    catch _ => return none

end Syllogism.CommandLine

open Syllogism.CommandLine

def main (args : List String) : IO UInt32 := do
  match Request.ofArguments? args with
  | none =>
    IO.eprintln ("\n".intercalate usage)
    return 2
  | some request =>
    match request.carryOut (← load request.files) (← now) with
    | .ok texts =>
      for text in texts do IO.println text
      return 0
    | .error failure =>
      IO.eprintln ("Error: " ++ failure.message)
      return 1
