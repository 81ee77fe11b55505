import LosslessTree.Command

set_option autoImplicit false

open LosslessTree

def readText (path : String) : IO (Except String Text) := do
  try
    return .ok (← IO.FS.readFile path).toList
  catch
    | .noFileOrDirectory _ _ _ => return .error "No such file or directory (os error 2)"
    | .permissionDenied _ _ _ => return .error "Permission denied (os error 13)"
    | _ => return .error "stream did not contain valid UTF-8"

def usage : String :=
  "usage: dump PATH | check PATH | outline PATH | query PATH --kind KIND\n"

def main (arguments : List String) : IO UInt32 := do
  match Command.ofArguments arguments with
  | none =>
      (← IO.getStderr).putStr usage
      return 2
  | some command =>
      let outcome := command.run (← readText command.path)
      (← IO.getStdout).putStr outcome.out
      (← IO.getStderr).putStr outcome.err
      return UInt32.ofNat outcome.code
