import ArenaScheme.CommandLine

/-! The program: files and streams around a console. -/

open ArenaScheme

private def readSource (path : String) : IO (Except FileProblem String) := do
  try
    return Session.decode (← IO.FS.readBinFile path)
  catch
    | .noFileOrDirectory .. => return .error .missing
    -- a path that goes through a file cannot be opened; a directory can, but not read
    | .inappropriateType (some _) .. => return .error .notDirectory
    | .inappropriateType none .. => return .error .isDirectory
    | .invalidArgument (some _) .. => return .error .nameTooLong
    | _ => return .error .missing

/-- Writes out what the console has printed since the last time. -/
private def flushConsole (console : Console) : IO Console := do
  let out ← IO.getStdout
  out.putStr console.machine.output
  out.flush
  let err ← IO.getStderr
  err.putStr console.errors
  err.flush
  return { console with machine := { console.machine with output := "" }, errors := "" }

private partial def answerInput (input : IO.FS.Stream) (console : Console) : IO UInt32 := do
  let console ← flushConsole console
  if let some status := console.status then return status.toUInt32
  let line ← input.getLine
  if line.isEmpty then return 0
  answerInput input (console.answerTyped (TypedLine.typed line.toList))

def main (arguments : List String) : IO UInt32 := do
  let console := Console.boot (← readSource CommandLine.bootstrapFile)
  match console.status, CommandLine.script? arguments with
  | none, some script =>
    let console ← flushConsole (console.runScript (← readSource script))
    return (console.status.getD 0).toUInt32
  | _, _ => answerInput (← IO.getStdin) console
