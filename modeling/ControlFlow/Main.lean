import ControlFlow.CommandLine.Run

/-! # The command line program

Reads and writes the files of the machine; everything else is decided by `CommandLine`.
-/

open ControlFlow.CommandLine

/-- The number of a fault; some calls give it negated. -/
def faultNumber (code : UInt32) : UInt32 := if 0x80000000 ≤ code then 0 - code else code

/-- What the file system says. -/
def fileFault (e : IO.Error) : FileFault :=
  match e with
  | .noFileOrDirectory .. => .missing
  | .permissionDenied .. => .denied
  | .inappropriateType _ code _ => if faultNumber code = 20 then .notFolder else .isFolder
  | .resourceExhausted _ code _ => if faultNumber code = 28 then .full else .other (toString e)
  | .invalidArgument _ code _ => if faultNumber code = 36 then .tooLong else .other (toString e)
  | .userError _ => .other "stream did not contain valid UTF-8"
  | e => .other (toString e)

def main (arguments : List String) : IO UInt32 := do
  let report (done : Outcome) : IO UInt32 := do
    (← IO.getStdout).putStr done.stdout
    (← IO.getStderr).putStr done.stderr
    return done.code
  match Invocation.ofArguments arguments with
  | .run options =>
      let source ← try pure (.ok (← IO.FS.readFile options.path))
        catch e => pure (.error (fileFault e))
      let done := outcome options source
      match done.file with
      | none => report done
      | some (path, text) =>
          try
            IO.FS.writeFile path text
            report done
          catch e => report (.fileFailed done.stderr path (fileFault e))
  | _ => report (run arguments ⟨[], []⟩).1
