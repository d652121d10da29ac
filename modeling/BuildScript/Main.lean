import BuildScript.CommandLine

/-!
The formatter as a program: runs the command line on the files of the system.
-/
namespace BuildScript

def readErrorOf : IO.Error → ReadError
  | .noFileOrDirectory .. => .notFound
  | .inappropriateType .. => .isADirectory
  | e => .other (toString e)

def readContent (path : String) : IO (Except ReadError (List UInt8)) := do
  try
    return .ok (← IO.FS.readBinFile path).toList
  catch e => return .error (readErrorOf e)

end BuildScript

open BuildScript

def main (args : List String) : IO UInt32 := do
  match Options.ofArguments? args with
  | none =>
    IO.eprintln "error: wrong arguments"
    return 2
  | some options =>
    match options.run (← readContent options.path) with
    | .ok (.print text) => IO.print text
    | .ok (.write text) => IO.FS.writeFile options.path text
    | .ok .nothing => pure ()
    | .error e =>
      IO.eprintln e.message
      return 1
    return 0
