import TrackFusion.CommandLine.Program

/-!
The command line program on real files.
-/

set_option autoImplicit false
set_option relaxedAutoImplicit false

namespace TrackFusion.Main

def succeeds (action : IO Unit) : IO Bool := do
  try
    action
    return true
  catch _ => return false

def realFiles : FileAccess IO where
  kind path := do
    try
      let entry := (← IO.currentDir) / path
      match (← entry.metadata).type with
      | .dir => return if path.isEmpty then none else some .folder
      | _ => return some .file
    catch _ => return none
  children path := do
    try
      let entry := (← IO.currentDir) / path
      return ((← entry.readDir).map fun child => child.fileName).toList
    catch _ => return []
  read path := do
    try
      return some (← IO.FS.readBinFile ((← IO.currentDir) / path)).toList
    catch _ => return none
  makeFolder path := do
    try
      IO.FS.createDir ((← IO.currentDir) / path)
      return .made
    catch
      | .noFileOrDirectory .. => return .missing
      | _ => return .refused
  write path content := do
    succeeds (IO.FS.writeFile ((← IO.currentDir) / path) content)

def usage : String :=
  "Usage: trackfusion --input <PATTERN> [--output <FOLDER>] [--frame <FRAME>] " ++
    "[--pruning-time <SECONDS>] [--pruning-ticks <CYCLES>] [--config <FILE>]"

end TrackFusion.Main

def main (arguments : List String) : IO UInt32 := do
  match TrackFusion.Arguments.read arguments with
  | .run _ => pure ()
  | .explain => IO.println TrackFusion.Main.usage
  | .refused => IO.eprintln TrackFusion.Main.usage
  let result ← TrackFusion.Program.run TrackFusion.Main.realFiles arguments
  let outcome := TrackFusion.ProgramOutcome.ofResult result
  for message in outcome.error do
    IO.eprintln ("Error: " ++ message)
  for cause in outcome.cause do
    IO.eprintln ("\nCaused by:\n    " ++ cause)
  return outcome.exitCode.toUInt32
