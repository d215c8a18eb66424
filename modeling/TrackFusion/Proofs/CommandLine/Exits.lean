import TrackFusion.Proofs.CommandLine.Program

/-!
What a run leaves when it ends with an error.

The options are built and the pattern is read before the output folder is made, and an input is read
completely before its table is begun. So a run whose options or pattern are refused leaves the files as
they are, and a run that stops at an input leaves what the run over the inputs before it leaves: the
table of the refused input is as it was, and no later input has been processed.
-/

set_option autoImplicit false
set_option relaxedAutoImplicit false

namespace TrackFusion.Program

/-- The options that a configuration file holds; without a file they are the standard ones. -/
inductive Configures (tree : FileTree) : Option String → TrackerOptions Float → Prop
  | standard : Configures tree none .standard
  | file {path text : String} {bytes : List UInt8} {options : TrackerOptions Float} :
    tree.found? path = some (.file bytes) → Lines.decode? bytes = some text →
    Format.parseOptions? text = some options → Configures tree (some path) options

inductive ConfigurationRejected (tree : FileTree) : Option String → ProgramError → Prop
  | missing {path : String} : tree.found? path = none →
    ConfigurationRejected tree (some path) (.cannotOpen path)
  | unreadable {path : String} {entries : List (String × FileEntry)} :
    tree.found? path = some (.folder entries) →
    ConfigurationRejected tree (some path) (.invalidConfig path)
  | invalid {path : String} {bytes : List UInt8} : tree.found? path = some (.file bytes) →
    (Lines.decode? bytes).bind Format.parseOptions? = none →
    ConfigurationRejected tree (some path) (.invalidConfig path)

inductive OptionsRejected (tree : FileTree) (a : Arguments) : ProgramError → Prop
  | configuration {e : ProgramError} : ConfigurationRejected tree a.config e →
    OptionsRejected tree a e
  | pruningTime {options : TrackerOptions Float} {seconds : Float} :
    Configures tree a.config options → a.pruningTime = some seconds →
    Duration.ofSeconds? seconds = none → OptionsRejected tree a (.invalidPruningTime seconds)
  | refused {options merged : TrackerOptions Float} {cause : InvalidOption Float} :
    Configures tree a.config options → override options a = .ok merged →
    merged.validate = .error cause → OptionsRejected tree a (.invalidOptions cause)

inductive InputRejected (tree : FileTree) (path : String) : ProgramError → Prop
  | missing : tree.found? path = none → InputRejected tree path (.cannotOpen path)
  | unreadable {entries : List (String × FileEntry)} : tree.found? path = some (.folder entries) →
    InputRejected tree path (.cannotRead path none)
  | badLine {scenario : List UInt8} {cause : ScenarioError} :
    tree.found? path = some (.file scenario) →
    Scenario.read Format.parseEvent? scenario = .error cause →
    InputRejected tree path (.cannotRead path (some cause))

section Options

variable {tree : FileTree} {a : Arguments} {e : ProgramError} {options : TrackerOptions Float}
  {config : Option String}

theorem onTree_configured_some (tree : FileTree) {path : String} {entry : FileEntry}
    (found : tree.found? path = some entry) :
    onTree (configured FileTree.access (some path)) tree =
      match (entry.content?.bind Lines.decode?).bind Format.parseOptions? with
      | some options => (.ok options, tree)
      | none => (.error (.invalidConfig path), tree) := by
  rw [configured, onTree_bind_of_ok (onTree_kind tree path), found]
  change onTree (liftM (FileTree.access.read path) >>= _) tree = _
  rw [onTree_bind_of_ok (onTree_read tree path), found, Option.bind_some]
  dsimp only
  cases (entry.content?.bind Lines.decode?).bind Format.parseOptions? <;> rfl

theorem Configures.onTree_configured (configures : Configures tree config options) :
    onTree (configured FileTree.access config) tree = (.ok options, tree) := by
  cases configures with
  | standard => rfl
  | file found decoded parsed =>
    rw [onTree_configured_some tree found, FileEntry.content?, Option.bind_some, decoded,
      Option.bind_some, parsed]

theorem ConfigurationRejected.onTree_configured (rejected : ConfigurationRejected tree config e) :
    onTree (configured FileTree.access config) tree = (.error e, tree) := by
  cases rejected with
  | @missing path nothing =>
    rw [configured, onTree_bind_of_ok (onTree_kind tree path), nothing]
    rfl
  | unreadable found => rw [onTree_configured_some tree found]; rfl
  | invalid found foreign =>
    rw [onTree_configured_some tree found, FileEntry.content?, Option.bind_some, foreign]

theorem configures_or_rejected (tree : FileTree) (config : Option String) :
    (∃ options, Configures tree config options) ∨ ∃ e, ConfigurationRejected tree config e := by
  cases config with
  | none => exact .inl ⟨_, .standard⟩
  | some path =>
    cases found : tree.found? path with
    | none => exact .inr ⟨_, .missing found⟩
    | some entry =>
      cases entry with
      | folder entries => exact .inr ⟨_, .unreadable found⟩
      | file bytes =>
        cases parsed : (Lines.decode? bytes).bind Format.parseOptions? with
        | none => exact .inr ⟨_, .invalid found parsed⟩
        | some options =>
          obtain ⟨text, decoded, read⟩ := Option.bind_eq_some_iff.mp parsed
          exact .inl ⟨options, .file found decoded read⟩

theorem override_of_long_pruningTime {seconds : Float} (given : a.pruningTime = some seconds)
    (long : Duration.ofSeconds? seconds = none) (options : TrackerOptions Float) :
    override options a = .error (.invalidPruningTime seconds) := by
  unfold override
  simp only [given, long]
  rfl

theorem exists_override_or_long (options : TrackerOptions Float) (a : Arguments) :
    (∃ merged, override options a = .ok merged) ∨
      ∃ seconds, a.pruningTime = some seconds ∧ Duration.ofSeconds? seconds = none := by
  cases given : a.pruningTime with
  | none => exact .inl ⟨_, by unfold override; simp only [given]; rfl⟩
  | some seconds =>
    cases long : Duration.ofSeconds? seconds with
    | none => exact .inr ⟨seconds, rfl, long⟩
    | some time => exact .inl ⟨_, by unfold override; simp only [given, long]; rfl⟩

theorem onTree_liftExcept {α : Type} (result : Except ProgramError α) (tree : FileTree) :
    onTree (optionsOf.liftExcept result) tree = (result, tree) :=
  rfl

theorem onTree_optionsOf_of_merged {merged : TrackerOptions Float}
    (configures : Configures tree a.config options) (done : override options a = .ok merged) :
    onTree (optionsOf FileTree.access a) tree =
      (merged.validate.mapError .invalidOptions |>.map fun _ => merged, tree) := by
  rw [optionsOf, onTree_bind_of_ok configures.onTree_configured, done,
    onTree_bind_of_ok (onTree_liftExcept (.ok merged) tree)]
  cases merged.validate <;> rfl

theorem OptionsRejected.onTree_optionsOf (rejected : OptionsRejected tree a e) :
    onTree (optionsOf FileTree.access a) tree = (.error e, tree) := by
  cases rejected with
  | configuration rejected =>
    rw [optionsOf, onTree_bind_of_error rejected.onTree_configured]
  | pruningTime configures given long =>
    rw [optionsOf, onTree_bind_of_ok configures.onTree_configured,
      override_of_long_pruningTime given long, onTree_bind_of_error (onTree_liftExcept _ tree)]
  | refused configures done refuses =>
    rw [onTree_optionsOf_of_merged configures done, refuses]
    rfl

theorem exists_options_or_rejected (tree : FileTree) (a : Arguments) :
    (∃ options, onTree (optionsOf FileTree.access a) tree = (.ok options, tree)) ∨
      ∃ e, OptionsRejected tree a e := by
  obtain ⟨options, configures⟩ | ⟨e, rejected⟩ := configures_or_rejected tree a.config
  · obtain ⟨merged, done⟩ | ⟨seconds, given, long⟩ := exists_override_or_long options a
    · cases valid : merged.validate with
      | ok _ => exact .inl ⟨merged, by rw [onTree_optionsOf_of_merged configures done, valid]; rfl⟩
      | error cause => exact .inr ⟨_, .refused configures done valid⟩
    · exact .inr ⟨_, .pruningTime configures given long⟩
  · exact .inr ⟨e, .configuration rejected⟩

end Options

section Inputs

variable {solver : Solver} {options : TrackerOptions Float} {output path : String}
  {earlier later paths : List String} {tree mid between : FileTree} {e : ProgramError}

theorem InputRejected.onTree_evaluate (rejected : InputRejected tree path e) (solver : Solver)
    (options : TrackerOptions Float) (output : String) :
    onTree (evaluate FileTree.access solver options output path) tree = (.error e, tree) := by
  have stopped : onTree (eventsOf FileTree.access path) tree = (.error e, tree) := by
    cases rejected with
    | missing nothing => exact onTree_eventsOf_of_none nothing
    | unreadable found => exact onTree_eventsOf_of_folder found
    | badLine found objection =>
      rw [onTree_eventsOf_of_file found, objection]
      rfl
  rw [evaluate, onTree_bind_of_error stopped]

/-- An input that no table of an earlier input replaces is rejected when its turn comes, if it was
there and would have been rejected before. -/
theorem InputRejected.of_changesOnly {touched : Set (List String)}
    (rejected : InputRejected tree path e) (there : tree.found? path ≠ none)
    (change : FileTree.ChangesOnly touched tree between)
    (free : tree.addressOf path ∉ touched) : InputRejected between path e := by
  cases rejected with
  | missing nothing => exact absurd nothing there
  | unreadable found =>
    obtain ⟨inner, folder⟩ := change.found?_of_found?_folder found
    exact .unreadable folder
  | badLine found objection => exact .badLine (change.found?_of_found? found free) objection

theorem onTree_evaluateAll_append
    (processed : onTree (evaluateAll FileTree.access solver options output earlier) tree =
      (.ok (), between)) (later : List String) :
    onTree (evaluateAll FileTree.access solver options output (earlier ++ later)) tree =
      onTree (evaluateAll FileTree.access solver options output later) between := by
  induction earlier generalizing tree with
  | nil =>
    cases processed
    rfl
  | cons path earlier ih =>
    obtain ⟨_, mid, first, rest⟩ := onTree_bind_eq_ok_iff.mp processed
    rw [List.cons_append, evaluateAll, onTree_bind_of_ok first]
    exact ih rest

/-- A rejected input ends the run where the inputs before it have left the files. -/
theorem InputRejected.onTree_evaluateAll
    (processed : onTree (evaluateAll FileTree.access solver options output earlier) tree =
      (.ok (), between)) (rejected : InputRejected between path e) (later : List String) :
    onTree (evaluateAll FileTree.access solver options output (earlier ++ path :: later)) tree =
      (.error e, between) := by
  rw [onTree_evaluateAll_append processed, evaluateAll,
    onTree_bind_of_error (rejected.onTree_evaluate solver options output)]

end Inputs

def replayInto {m : Type → Type} [Monad m] (files : FileAccess m) (solver : Solver)
    (options : TrackerOptions Float) (output : String) (paths : List String) :
    ExceptT ProgramError m Unit := do
  let ready ← ExceptT.lift (makeFolders files (output :: pathsAround output))
  if !ready then throw (.cannotCreate output)
  evaluateAll files solver options output paths

def Requests (tree : FileTree) (arguments : List String) (options : TrackerOptions Float)
    (output : String) (paths : List String) : Prop :=
  ∃ a pattern, Arguments.read arguments = .run a ∧ a.output = output ∧
    onTree (optionsOf FileTree.access a) tree = (.ok options, tree) ∧
    PathPattern.parse? a.input = some pattern ∧
    (pattern.expand FileTree.access).run tree = (paths, tree)

/-- A run stops with an error at the input `path`, where the run over the inputs before it has left
`after`. -/
structure StopsAt (options : TrackerOptions Float) (output : String) (earlier : List String)
    (path : String) (tree : FileTree) (arguments : List String) (e : ProgramError)
    (after : FileTree) : Prop where
  stopped : runIn tree arguments = (.ofResult (.error e), after)
  exitCode : e.exitCode = 1
  tables : HasWritten .augmentingPaths options output earlier tree after
  /-- A table of the refused input is as it was, unless it is one of an earlier input. -/
  own : (∀ other ∈ earlier, fileStem other ≠ fileStem path) →
    after.root.fileAt? (tree.addressOf (tablePath output path)) =
      tree.root.fileAt? (tree.addressOf (tablePath output path))

/-- What the errors of a run leave. -/
structure ExitsCleanly (tree : FileTree) (arguments : List String) : Prop where
  options : ∀ a e, Arguments.read arguments = .run a → OptionsRejected tree a e →
    runIn tree arguments = (.ofResult (.error e), tree) ∧ e.exitCode = 1
  pattern : ∀ a, Arguments.read arguments = .run a → PathPattern.parse? a.input = none →
    (runIn tree arguments).2 = tree ∧ (runIn tree arguments).1.exitCode = 1
  run : ∀ options output paths, Requests tree arguments options output paths →
    runIn tree arguments =
      (.ofResult (onTree (replayInto FileTree.access .augmentingPaths options output paths) tree).1,
        (onTree (replayInto FileTree.access .augmentingPaths options output paths) tree).2)
  total : ∀ a, Arguments.read arguments = .run a →
    (∃ e, OptionsRejected tree a e) ∨ PathPattern.parse? a.input = none ∨
      ∃ options paths, Requests tree arguments options a.output paths
  /-- An input that is rejected when its turn comes ends the run, whatever inputs follow. -/
  input : ∀ options output earlier path later after e,
    Requests tree arguments options output (earlier ++ path :: later) →
    onTree (replayInto FileTree.access .augmentingPaths options output earlier) tree =
      (.ok (), after) →
    InputRejected after path e → StopsAt options output earlier path tree arguments e after
  /-- An input is rejected when its turn comes if it was there and would have been rejected at once,
  and no table of an earlier input replaces it. -/
  unreplaced : ∀ options output earlier path after e,
    onTree (replayInto FileTree.access .augmentingPaths options output earlier) tree =
      (.ok (), after) →
    tree.found? path ≠ none → InputRejected tree path e →
    tree.addressOf path ∉ tableAddresses tree output earlier → InputRejected after path e

section Runs

variable {options : TrackerOptions Float} {output path : String} {earlier paths : List String}
  {tree after : FileTree} {arguments : List String} {a : Arguments} {e : ProgramError}

theorem ConfigurationRejected.exitCode {config : Option String}
    (rejected : ConfigurationRejected tree config e) : e.exitCode = 1 := by
  cases rejected <;> rfl

theorem OptionsRejected.exitCode (rejected : OptionsRejected tree a e) : e.exitCode = 1 := by
  cases rejected with
  | configuration rejected => exact rejected.exitCode
  | pruningTime | refused => rfl

theorem InputRejected.exitCode (rejected : InputRejected tree path e) : e.exitCode = 1 := by
  cases rejected <;> rfl

theorem onTree_evaluateMatches_of_options
    (built : onTree (optionsOf FileTree.access a) tree = (.ok options, tree)) :
    onTree (evaluateMatches FileTree.access .augmentingPaths a) tree =
      match PathPattern.parse? a.input with
      | none => (.error (.invalidPattern a.input), tree)
      | some pattern => onTree (replayInto FileTree.access .augmentingPaths options a.output
          ((pattern.expand FileTree.access).run tree).1) tree := by
  rw [evaluateMatches, onTree_bind_of_ok built]
  cases PathPattern.parse? a.input with
  | none => rfl
  | some pattern =>
    have expanded : (pattern.expand FileTree.access).run tree =
        (((pattern.expand FileTree.access).run tree).1, tree) :=
      Prod.ext rfl (pattern.onlyReads_expand tree)
    dsimp only
    rw [onTree_bind_of_ok (onTree_lift_eq_ok_iff.mpr expanded)]
    rfl

theorem replayInto_eq_ok (ran : onTree (replayInto FileTree.access .augmentingPaths options output
      paths) tree = (.ok (), after)) :
    ∃ mid, (makeFolders FileTree.access (output :: pathsAround output)).run tree = (true, mid) ∧
      FileTree.ChangesOnly ∅ tree mid ∧
      onTree (evaluateAll FileTree.access .augmentingPaths options output paths) mid =
        (.ok (), after) := by
  obtain ⟨ready, mid, made, processed⟩ := onTree_bind_eq_ok_iff.mp ran
  rw [onTree_lift_eq_ok_iff] at made
  have folders := onlyMakesFolders_makeFolders (output :: pathsAround output) tree
  rw [made] at folders
  cases ready with
  | false => cases processed
  | true => exact ⟨mid, made, folders, processed⟩

theorem onTree_replayInto_of_made {mid : FileTree}
    (made : (makeFolders FileTree.access (output :: pathsAround output)).run tree = (true, mid))
    (paths : List String) :
    onTree (replayInto FileTree.access .augmentingPaths options output paths) tree =
      onTree (evaluateAll FileTree.access .augmentingPaths options output paths) mid := by
  rw [replayInto, onTree_bind_of_ok (onTree_lift_eq_ok_iff.mpr made)]
  rfl

theorem hasWritten_of_replayInto (ran : onTree (replayInto FileTree.access .augmentingPaths options
      output paths) tree = (.ok (), after)) :
    HasWritten .augmentingPaths options output paths tree after := by
  obtain ⟨mid, -, folders, processed⟩ := replayInto_eq_ok ran
  exact (HasWritten.of_evaluateAll processed).of_changesOnly folders

theorem changesOnly_of_replayInto (ran : onTree (replayInto FileTree.access .augmentingPaths options
      output paths) tree = (.ok (), after)) :
    FileTree.ChangesOnly (tableAddresses tree output paths) tree after := by
  obtain ⟨mid, -, folders, processed⟩ := replayInto_eq_ok ran
  have tables := changesOnly_evaluateAll processed
  rw [tableAddresses_congr folders.home] at tables
  exact (folders.mono (Set.empty_subset _)).trans tables

theorem InputRejected.onTree_replayInto
    (processed : onTree (replayInto FileTree.access .augmentingPaths options output earlier) tree =
      (.ok (), after)) (rejected : InputRejected after path e) (later : List String) :
    onTree (replayInto FileTree.access .augmentingPaths options output (earlier ++ path :: later))
      tree = (.error e, after) := by
  obtain ⟨mid, made, -, ran⟩ := replayInto_eq_ok processed
  rw [onTree_replayInto_of_made made, rejected.onTree_evaluateAll ran later]

theorem Requests.runIn_eq (requests : Requests tree arguments options output paths) :
    runIn tree arguments =
      (.ofResult (onTree (replayInto FileTree.access .augmentingPaths options output paths) tree).1,
        (onTree (replayInto FileTree.access .augmentingPaths options output paths) tree).2) := by
  obtain ⟨a, pattern, read, rfl, built, parsed, expanded⟩ := requests
  rw [runIn_of_run read, onTree_evaluateMatches_of_options built, parsed]
  simp only [expanded]

theorem stopsAt_of_rejected {later : List String}
    (requests : Requests tree arguments options output (earlier ++ path :: later))
    (processed : onTree (replayInto FileTree.access .augmentingPaths options output earlier) tree =
      (.ok (), after)) (rejected : InputRejected after path e) :
    StopsAt options output earlier path tree arguments e after where
  stopped := by rw [requests.runIn_eq, rejected.onTree_replayInto processed later]
  exitCode := rejected.exitCode
  tables := hasWritten_of_replayInto processed
  own differ := by
    refine (hasWritten_of_replayInto processed).others _ ?_
    rintro ⟨other, mem, same⟩
    exact differ other mem (addressOf_tablePath_eq_iff.mp same).symm

/-- Errors leave no table half written. -/
theorem exitsCleanly (tree : FileTree) (arguments : List String) : ExitsCleanly tree arguments where
  options a e read rejected := by
    refine ⟨?_, rejected.exitCode⟩
    rw [runIn_of_run read, evaluateMatches, onTree_bind_of_error rejected.onTree_optionsOf]
  pattern a read invalid := by
    rw [runIn_of_run read]
    obtain ⟨options, built⟩ | ⟨e, rejected⟩ := exists_options_or_rejected tree a
    · rw [onTree_evaluateMatches_of_options built, invalid]
      exact ⟨rfl, rfl⟩
    · rw [evaluateMatches, onTree_bind_of_error rejected.onTree_optionsOf]
      exact ⟨rfl, rejected.exitCode⟩
  run _ _ _ requests := requests.runIn_eq
  total a read := by
    obtain ⟨options, built⟩ | rejected := exists_options_or_rejected tree a
    · cases parsed : PathPattern.parse? a.input with
      | none => exact .inr (.inl rfl)
      | some pattern =>
        exact .inr (.inr ⟨options, _, a, pattern, read, rfl, built, parsed,
          Prod.ext rfl (pattern.onlyReads_expand tree)⟩)
    · exact .inl rejected
  input _ _ _ _ _ _ _ requests processed rejected := stopsAt_of_rejected requests processed rejected
  unreplaced _ _ _ _ _ _ processed there rejected free :=
    rejected.of_changesOnly there (changesOnly_of_replayInto processed) free

set_option maxRecDepth 20000 in
-- the second input is a folder: its old table stays, and the third one gets none
example :
    let outcome := runIn (FileTree.ofFiles
      [("a.jsonl", []), ("b.jsonl/x", []), ("c.jsonl", []), ("out/b.csv", [49])])
      ["--input", "*.jsonl"]
    outcome.1.exitCode = 1 ∧ outcome.2.filesIn "out" = [("a.csv", []), ("b.csv", [49])] := by
  decide +kernel

end Runs

end TrackFusion.Program
