import TrackFusion.CommandLine.Arguments
import TrackFusion.CommandLine.FileTree
import TrackFusion.CommandLine.Pattern
import TrackFusion.Scenario.Format
import TrackFusion.Scenario.Replay

/-!
The program: replays every scenario file that matches a pattern and writes one table per file.

The options are built and checked first, then the pattern, then the output folder is made. After
that the files are processed in the order of their paths, each read completely before its table is
begun, and the first failure ends the run. The run is written over `FileAccess`, so that it applies
to real files and to a `FileTree` alike.
-/

set_option autoImplicit false
set_option relaxedAutoImplicit false

namespace TrackFusion

inductive ProgramError where
  | usage
  | cannotOpen (path : String)
  | invalidConfig (path : String)
  | invalidPruningTime (seconds : Float)
  | invalidOptions (cause : InvalidOption Float)
  | invalidPattern (pattern : String)
  | cannotCreate (path : String)
  | cannotRead (path : String) (cause : Option ScenarioError)
  | overflow (cause : DurationOverflow)

structure ProgramOutcome where
  exitCode : Nat
  error : Option String
  cause : Option String
  deriving DecidableEq, Repr

namespace ProgramError

def message : ProgramError → Option String
  | .usage => none
  | .cannotOpen path => some ("failed to open " ++ path)
  | .invalidConfig path => some ("invalid config " ++ path)
  | .invalidPruningTime seconds =>
    some ("invalid pruning time " ++ NumberStyle.message.write seconds)
  | .invalidOptions _ => some "invalid tracker options"
  | .invalidPattern pattern => some ("invalid input pattern " ++ pattern)
  | .cannotCreate path => some ("failed to create " ++ path)
  | .cannotRead path _ => some ("failed to read " ++ path)
  | .overflow _ => none

def causeMessage : ProgramError → Option String
  | .invalidOptions cause => some (cause.message NumberStyle.message.write)
  | .cannotRead _ (some cause) => some cause.message
  | .overflow cause => some cause.message
  | _ => none

def exitCode : ProgramError → Nat
  | .usage => 2
  | .overflow _ => 101
  | _ => 1

end ProgramError

def ProgramOutcome.ofResult : Except ProgramError Unit → ProgramOutcome
  | .ok () => ⟨0, none, none⟩
  | .error e => ⟨e.exitCode, e.message, e.causeMessage⟩

namespace Program

variable {m : Type → Type} [Monad m]

def configured (files : FileAccess m) (config : Option String) :
    ExceptT ProgramError m (TrackerOptions Float) := do
  match config with
  | none => return .standard
  | some path =>
    if (← files.kind path).isNone then throw (.cannotOpen path)
    let text := (← files.read path).bind Lines.decode?
    match text.bind Format.parseOptions? with
    | some options => return options
    | none => throw (.invalidConfig path)

def override (options : TrackerOptions Float) (a : Arguments) :
    Except ProgramError (TrackerOptions Float) := do
  let pruningTime ←
    match a.pruningTime with
    | none => pure options.pruningTime
    | some seconds =>
      match Duration.ofSeconds? seconds with
      | some time => pure time
      | none => throw (.invalidPruningTime seconds)
  return { options with
    frame := a.frame.getD options.frame
    pruningTime := pruningTime
    pruningTicks := a.pruningTicks.getD options.pruningTicks }

def optionsOf (files : FileAccess m) (a : Arguments) :
    ExceptT ProgramError m (TrackerOptions Float) := do
  let options ← liftExcept (override (← configured files a.config) a)
  match options.validate with
  | .ok () => return options
  | .error cause => throw (.invalidOptions cause)
where
  liftExcept {α : Type} (result : Except ProgramError α) : ExceptT ProgramError m α :=
    ExceptT.mk (pure result)

def eventsOf (files : FileAccess m) (path : String) :
    ExceptT ProgramError m (List (Event Float Float32)) := do
  if (← files.kind path).isNone then throw (.cannotOpen path)
  match ← files.read path with
  | none => throw (.cannotRead path none)
  | some bytes =>
    match Scenario.read Format.parseEvent? bytes with
    | .ok events => return events
    | .error cause => throw (.cannotRead path (some cause))

def tablePath (output path : String) : String :=
  joinPath output (fileStem path ++ ".csv")

/-- Replays a scenario file through a new tracker and writes its table. A replay that stops in the
middle leaves the rows before. -/
def evaluate (files : FileAccess m) (solver : Solver) (options : TrackerOptions Float)
    (output path : String) : ExceptT ProgramError m Unit := do
  let events ← eventsOf files path
  let tracker : Tracker Float Float32 := .start options
  let target := tablePath output path
  match tracker.replay solver events with
  | .ok replay =>
    if !(← files.write target (TrackRow.table replay.rows)) then throw (.cannotCreate target)
  | .error failure =>
    if !(← files.write target (TrackRow.table failure.rows)) then throw (.cannotCreate target)
    throw (.overflow failure.cause)

def evaluateAll (files : FileAccess m) (solver : Solver) (options : TrackerOptions Float)
    (output : String) : List String → ExceptT ProgramError m Unit
  | [] => return ()
  | path :: rest => do
    evaluate files solver options output path
    evaluateAll files solver options output rest

/-- Makes the first folder of a list of paths, each around the one before, and tells whether it is
there then. If a folder around it is missing, those are made first. -/
def makeFolders (files : FileAccess m) : List String → m Bool
  | [] => return false
  | path :: around => do
    if path = "" then return true
    match ← files.makeFolder path with
    | .made => return true
    | .refused => files.isFolder path
    | .missing =>
      if !(← makeFolders files around) then return false
      match ← files.makeFolder path with
      | .made => return true
      | _ => files.isFolder path

def evaluateMatches (files : FileAccess m) (solver : Solver) (a : Arguments) :
    ExceptT ProgramError m Unit := do
  let options ← optionsOf files a
  match PathPattern.parse? a.input with
  | none => throw (.invalidPattern a.input)
  | some pattern =>
    -- inputs are listed before the first table is written, so a new table is never taken for one
    let paths ← ExceptT.lift (pattern.expand files)
    let ready ← ExceptT.lift (makeFolders files (a.output :: pathsAround a.output))
    if !ready then throw (.cannotCreate a.output)
    evaluateAll files solver options a.output paths

def run (files : FileAccess m) (arguments : List String) : m (Except ProgramError Unit) :=
  match Arguments.read arguments with
  | .run a => (evaluateMatches files .augmentingPaths a).run
  | .explain => return .ok ()
  | .refused => return .error .usage

def runIn (tree : FileTree) (arguments : List String) : ProgramOutcome × FileTree :=
  let (result, after) := (run FileTree.access arguments).run tree
  (.ofResult result, after)

end Program

end TrackFusion
