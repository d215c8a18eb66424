import TrackFusion.Proofs.CommandLine.FileTree
import TrackFusion.Proofs.CommandLine.Reading
import TrackFusion.Proofs.Scenario.Reading
import TrackFusion.Proofs.Scenario.Replay

/-!
The tables that a run leaves.

A run that succeeds reads its inputs one after the other and writes a table for each. The table is
named after the stem of its input, so that two inputs share a table if and only if they share a stem:
the later one replaces the table of the earlier one. Nothing else is changed. An input that is itself
a table, in the output folder, is read as it was before the run unless an earlier input of its stem
has replaced it.
-/

set_option autoImplicit false
set_option relaxedAutoImplicit false

namespace TrackFusion.Program

def onTree {α : Type} (action : ExceptT ProgramError (StateM FileTree) α) (tree : FileTree) :
    Except ProgramError α × FileTree :=
  action.run.run tree

section Sequence

variable {α β : Type} {tree after : FileTree}

variable {action : ExceptT ProgramError (StateM FileTree) α}
  {next : α → ExceptT ProgramError (StateM FileTree) β} {mid : FileTree} {a : α} {b : β}
  {e : ProgramError}

theorem onTree_bind_of_ok (ran : onTree action tree = (.ok a, mid)) :
    onTree (action >>= next) tree = onTree (next a) mid := by
  unfold onTree at ran ⊢
  rw [ExceptT.run_bind, StateT.run_bind, ran]
  rfl

theorem onTree_bind_of_error (ran : onTree action tree = (.error e, mid)) :
    onTree (action >>= next) tree = (.error e, mid) := by
  unfold onTree at ran ⊢
  rw [ExceptT.run_bind, StateT.run_bind, ran]
  rfl

theorem onTree_bind_eq_ok_iff : onTree (action >>= next) tree = (.ok b, after) ↔
    ∃ a mid, onTree action tree = (.ok a, mid) ∧ onTree (next a) mid = (.ok b, after) := by
  cases ran : onTree action tree with
  | mk result mid =>
    cases result with
    | error e => simp [onTree_bind_of_error ran]
    | ok a => simp [onTree_bind_of_ok ran]

theorem onTree_lift_eq_ok_iff {action : StateM FileTree α} :
    onTree (ExceptT.lift action) tree = (.ok a, mid) ↔ action.run tree = (a, mid) := by
  have ran : onTree (ExceptT.lift action) tree =
      (.ok (action.run tree).1, (action.run tree).2) := rfl
  rw [ran, Prod.mk.injEq, Except.ok.injEq, Prod.ext_iff]

theorem onTree_snd {action : ExceptT ProgramError (StateM FileTree) α}
    (reads : OnlyReads action.run) (tree : FileTree) : (onTree action tree).2 = tree :=
  reads tree

end Sequence

/-- The bytes are the table of a scenario file: of the rows that its events give, replayed through a
new tracker. -/
def IsTableOf (solver : Solver) (options : TrackerOptions Float) (scenario table : List UInt8) :
    Prop :=
  ∃ (events : List (Event Float Float32)) (replay : Replay Float Float32),
    Scenario.read Format.parseEvent? scenario = .ok events ∧
    (Tracker.start options).replay solver events = .ok replay ∧
    table = (TrackRow.table replay.rows).toUTF8.toList

section Evaluation

variable {solver : Solver} {options : TrackerOptions Float} {output path : String}
  {tree after : FileTree}

theorem onTree_kind (tree : FileTree) (path : String) :
    onTree (liftM (FileTree.access.kind path)) tree =
      (.ok ((tree.found? path).map FileEntry.kind), tree) :=
  rfl

theorem onTree_read (tree : FileTree) (path : String) :
    onTree (liftM (FileTree.access.read path)) tree =
      (.ok ((tree.found? path).bind FileEntry.content?), tree) :=
  rfl

theorem onTree_eventsOf_of_none (missing : tree.found? path = none) :
    onTree (eventsOf FileTree.access path) tree = (.error (.cannotOpen path), tree) := by
  rw [eventsOf, onTree_bind_of_ok (onTree_kind tree path), missing]
  rfl

theorem onTree_eventsOf_of_folder {entries : List (String × FileEntry)}
    (found : tree.found? path = some (.folder entries)) :
    onTree (eventsOf FileTree.access path) tree = (.error (.cannotRead path none), tree) := by
  rw [eventsOf, onTree_bind_of_ok (onTree_kind tree path), found]
  change onTree (liftM (FileTree.access.read path) >>= _) tree = _
  rw [onTree_bind_of_ok (onTree_read tree path), found]
  rfl

theorem onTree_eventsOf_of_file {scenario : List UInt8}
    (found : tree.found? path = some (.file scenario)) :
    onTree (eventsOf FileTree.access path) tree =
      ((Scenario.read Format.parseEvent? scenario).mapError fun cause =>
        ProgramError.cannotRead path (some cause), tree) := by
  rw [eventsOf, onTree_bind_of_ok (onTree_kind tree path), found]
  change onTree (liftM (FileTree.access.read path) >>= _) tree = _
  rw [onTree_bind_of_ok (onTree_read tree path), found, Option.bind_some, FileEntry.content?]
  dsimp only
  cases Scenario.read Format.parseEvent? scenario <;> rfl

theorem eventsOf_eq_ok_iff {events : List (Event Float Float32)} :
    onTree (eventsOf FileTree.access path) tree = (.ok events, after) ↔
      after = tree ∧ ∃ scenario, tree.found? path = some (.file scenario) ∧
        Scenario.read Format.parseEvent? scenario = .ok events := by
  cases found : tree.found? path with
  | none => simp [onTree_eventsOf_of_none found]
  | some entry =>
    cases entry with
    | folder entries => simp [onTree_eventsOf_of_folder found]
    | file scenario =>
      rw [onTree_eventsOf_of_file found]
      cases read : Scenario.read Format.parseEvent? scenario <;>
        simp [Except.mapError, read, and_comm, eq_comm]

theorem onTree_write (tree : FileTree) (path text : String) :
    (∃ changed, tree.write? path text.toUTF8.toList = some changed ∧
        onTree (liftM (FileTree.access.write path text)) tree = (.ok true, changed)) ∨
      tree.write? path text.toUTF8.toList = none ∧
        onTree (liftM (FileTree.access.write path text)) tree = (.ok false, tree) := by
  have ran : onTree (liftM (FileTree.access.write path text)) tree =
      (.ok (FileTree.access.write path text tree).1, (FileTree.access.write path text tree).2) :=
    rfl
  rw [ran]
  simp only [FileTree.access, modifyGet, MonadStateOf.modifyGet, StateT.modifyGet]
  cases tree.write? path text.toUTF8.toList with
  | none => exact .inr ⟨rfl, rfl⟩
  | some changed => exact .inl ⟨changed, rfl, rfl⟩

/-- What follows on writing a file runs on the tree that has it, if what is done otherwise fails. -/
theorem onTree_write_or {text : String} {failed next : ExceptT ProgramError (StateM FileTree) Unit}
    (fails : ∀ mid, onTree failed mid ≠ (.ok (), after)) :
    onTree (do if !(← FileTree.access.write path text) then failed else next) tree =
        (.ok (), after) ↔
      ∃ changed, tree.write? path text.toUTF8.toList = some changed ∧
        onTree next changed = (.ok (), after) := by
  obtain ⟨changed, written, outcome⟩ | ⟨refused, outcome⟩ := onTree_write tree path text
  · rw [onTree_bind_of_ok outcome, written]
    constructor
    · exact fun done => ⟨changed, rfl, done⟩
    · rintro ⟨_, ⟨rfl⟩, done⟩
      exact done
  · rw [onTree_bind_of_ok outcome, refused]
    constructor
    · exact fun done => absurd done (fails tree)
    · rintro ⟨_, none, -⟩
      cases none

theorem evaluate_eq_ok_iff :
    onTree (evaluate FileTree.access solver options output path) tree = (.ok (), after) ↔
      ∃ scenario table, tree.found? path = some (.file scenario) ∧
        IsTableOf solver options scenario table ∧
        tree.write? (tablePath output path) table = some after := by
  rw [evaluate, onTree_bind_eq_ok_iff]
  simp only [eventsOf_eq_ok_iff]
  constructor
  · rintro ⟨events, mid, ⟨same, scenario, found, read⟩, done⟩
    subst same
    cases ran : (Tracker.start options).replay solver events with
    | ok replay =>
      simp only [ran] at done
      obtain ⟨changed, written, ended⟩ := (onTree_write_or (by rintro _ ⟨⟩)).mp done
      cases ended
      exact ⟨scenario, _, found, ⟨events, replay, read, ran, rfl⟩, written⟩
    | error failure =>
      simp only [ran] at done
      obtain ⟨changed, -, ended⟩ := (onTree_write_or (by rintro _ ⟨⟩)).mp done
      cases ended
  · rintro ⟨scenario, table, found, ⟨events, replay, read, ran, rfl⟩, written⟩
    refine ⟨events, tree, ⟨rfl, scenario, found, read⟩, ?_⟩
    simp only [ran]
    exact (onTree_write_or (by rintro _ ⟨⟩)).mpr ⟨after, written, rfl⟩

theorem evaluateAll_append_eq_ok_iff {first second : List String} :
    onTree (evaluateAll FileTree.access solver options output (first ++ second)) tree =
        (.ok (), after) ↔
      ∃ mid, onTree (evaluateAll FileTree.access solver options output first) tree = (.ok (), mid) ∧
        onTree (evaluateAll FileTree.access solver options output second) mid = (.ok (), after) := by
  induction first generalizing tree with
  | nil =>
    constructor
    · exact fun ran => ⟨tree, rfl, ran⟩
    · rintro ⟨mid, start, ran⟩
      cases start
      exact ran
  | cons path first ih =>
    simp only [List.cons_append, evaluateAll, onTree_bind_eq_ok_iff, ih]
    constructor
    · rintro ⟨_, mid, ran, next, rest, last⟩
      exact ⟨next, ⟨(), mid, ran, rest⟩, last⟩
    · rintro ⟨next, ⟨_, mid, ran, rest⟩, last⟩
      exact ⟨(), mid, ran, next, rest, last⟩

theorem exists_isTableOf (every : options.creation.policy = .everyDetection) (solver : Solver)
    {scenario : List UInt8} {events : List (Event Float Float32)}
    (read : Scenario.read Format.parseEvent? scenario = .ok events) :
    ∃ table, IsTableOf solver options scenario table := by
  obtain ⟨replay, ran⟩ := (Session.invariant_start options).exists_replay every solver events
  exact ⟨_, events, replay, read, ran, rfl⟩

end Evaluation

section Addresses

variable {tree : FileTree} {output path other : String}

theorem addressOf_tablePath (tree : FileTree) (output path : String) :
    tree.addressOf (tablePath output path) =
      tree.addressOf (joinPath output "") ++ [fileStem path ++ ".csv"] := by
  have closed : '/' ∉ (fileStem path ++ ".csv").toList := by
    rw [String.toList_append, List.mem_append, not_or]
    exact ⟨not_mem_fileStem path, by decide⟩
  exact FileTree.addressOf_joinPath (isName_append_csv _) closed tree

/-- Two inputs share a table if and only if they share a stem. -/
theorem addressOf_tablePath_eq_iff :
    tree.addressOf (tablePath output path) = tree.addressOf (tablePath output other) ↔
      fileStem path = fileStem other := by
  rw [addressOf_tablePath, addressOf_tablePath, List.append_cancel_left_eq, List.cons.injEq,
    and_iff_left rfl, append_csv_inj]

theorem fileStem_eq_of_addressOf_eq (named : IsName (fileName path))
    (otherNamed : IsName (fileName other))
    (same : tree.addressOf path = tree.addressOf (tablePath output other)) :
    fileStem path = fileStem other := by
  obtain ⟨folder, address⟩ := FileTree.exists_addressOf_eq named tree
  rw [addressOf_tablePath, address] at same
  have last : fileName path = fileStem other ++ ".csv" :=
    List.singleton_inj.mp (List.append_inj' same (by simp only [List.length_singleton])).2
  refine fileStem_of_fileName last (fileStem_ne_empty ?_)
  rintro empty
  rw [empty] at otherNamed
  exact absurd otherNamed.1 (by decide)

end Addresses

def tableAddresses (tree : FileTree) (output : String) (paths : List String) :
    Set (List String) :=
  {address | ∃ path ∈ paths, address = tree.addressOf (tablePath output path)}

section Inputs

variable {solver : Solver} {options : TrackerOptions Float} {output : String}
  {paths : List String} {tree after : FileTree}

theorem tableAddresses_congr (same : after.home = tree.home) (output : String)
    (paths : List String) :
    tableAddresses after output paths = tableAddresses tree output paths := by
  simp only [tableAddresses, FileTree.addressOf_congr same]

theorem changesOnly_evaluateAll
    (ran : onTree (evaluateAll FileTree.access solver options output paths) tree =
      (.ok (), after)) :
    FileTree.ChangesOnly (tableAddresses tree output paths) tree after := by
  induction paths generalizing tree with
  | nil =>
    cases ran
    exact .refl _ _
  | cons path rest ih =>
    obtain ⟨_, mid, first, others⟩ := onTree_bind_eq_ok_iff.mp ran
    obtain ⟨scenario, table, -, -, written⟩ := evaluate_eq_ok_iff.mp first
    have change := (FileTree.of_write? written).2
    refine (change.mono ?_).trans ((ih others).mono ?_)
    · rintro _ rfl
      exact ⟨path, List.mem_cons_self, rfl⟩
    · rintro _ ⟨other, mem, rfl⟩
      exact ⟨other, List.mem_cons_of_mem path mem, FileTree.addressOf_congr change.home _⟩

theorem isName_of_evaluateAll
    (ran : onTree (evaluateAll FileTree.access solver options output paths) tree =
      (.ok (), after)) {path : String} (mem : path ∈ paths) : IsName (fileName path) := by
  induction paths generalizing tree with
  | nil => cases mem
  | cons first rest ih =>
    obtain ⟨_, mid, processed, others⟩ := onTree_bind_eq_ok_iff.mp ran
    obtain rfl | mem := List.mem_cons.mp mem
    · obtain ⟨scenario, table, found, -⟩ := evaluate_eq_ok_iff.mp processed
      exact FileTree.isName_fileName found
    · exact ih others mem

end Inputs

/-- What processing inputs makes of the files there were. -/
structure HasWritten (solver : Solver) (options : TrackerOptions Float) (output : String)
    (paths : List String) (before after : FileTree) : Prop where
  table : ∀ earlier path later, paths = earlier ++ path :: later →
    (∀ other ∈ later, fileStem other ≠ fileStem path) →
    -- an input in the output folder may itself be replaced by an earlier table of its stem
    (∀ other ∈ earlier, fileStem other = fileStem path →
      before.addressOf path ≠ before.addressOf (tablePath output other)) →
    ∃ scenario table, before.root.fileAt? (before.addressOf path) = some scenario ∧
      IsTableOf solver options scenario table ∧
      after.found? (tablePath output path) = some (.file table)
  /-- Inputs share a table exactly if they share a stem. -/
  own : ∀ path ∈ paths, ∀ other ∈ paths,
    before.addressOf (tablePath output path) = before.addressOf (tablePath output other) ↔
      fileStem path = fileStem other
  others : ∀ address ∉ tableAddresses before output paths,
    after.root.fileAt? address = before.root.fileAt? address

namespace HasWritten

variable {solver : Solver} {options : TrackerOptions Float} {output : String}
  {paths : List String} {before after : FileTree}

theorem of_evaluateAll
    (ran : onTree (evaluateAll FileTree.access solver options output paths) before =
      (.ok (), after)) : HasWritten solver options output paths before after where
  table := by
    rintro earlier path later rfl last unreplaced
    obtain ⟨start, processed, rest⟩ := evaluateAll_append_eq_ok_iff.mp ran
    obtain ⟨_, mid, evaluated, following⟩ := onTree_bind_eq_ok_iff.mp rest
    obtain ⟨scenario, table, found, isTable, written⟩ := evaluate_eq_ok_iff.mp evaluated
    have soFar := changesOnly_evaluateAll processed
    obtain ⟨there, change⟩ := FileTree.of_write? written
    refine ⟨scenario, table, ?_, isTable, ?_⟩
    · -- the input is read as it was, as no earlier table is at its address
      rw [← soFar.fileAt?, ← FileTree.addressOf_congr soFar.home]
      · exact FileTree.fileAt?_of_found? found
      · rintro ⟨other, mem, same⟩
        refine unreplaced other mem (Eq.symm ?_) same
        exact fileStem_eq_of_addressOf_eq (FileTree.isName_fileName found)
          (isName_of_evaluateAll processed mem) same
    · -- its table stays, as no later input has its stem
      refine (changesOnly_evaluateAll following).found?_of_found? there ?_
      rintro ⟨other, mem, same⟩
      exact last other mem (addressOf_tablePath_eq_iff.mp same).symm
  own _ _ _ _ := addressOf_tablePath_eq_iff
  others _ free := (changesOnly_evaluateAll ran).fileAt? free

theorem of_changesOnly {start : FileTree} (made : FileTree.ChangesOnly ∅ start before)
    (written : HasWritten solver options output paths before after) :
    HasWritten solver options output paths start after := by
  have address (path : String) : before.addressOf path = start.addressOf path :=
    FileTree.addressOf_congr made.home path
  have file (address : List String) :
      before.root.fileAt? address = start.root.fileAt? address :=
    made.fileAt? (Set.notMem_empty address)
  obtain ⟨table, own, others⟩ := written
  simp only [address, file, tableAddresses_congr made.home] at table own others
  exact ⟨table, own, others⟩

theorem exists_table (written : HasWritten solver options output paths before after)
    (distinct : paths.Pairwise fun path other => fileStem path ≠ fileStem other)
    {path : String} (mem : path ∈ paths) :
    ∃ scenario table, before.root.fileAt? (before.addressOf path) = some scenario ∧
      IsTableOf solver options scenario table ∧
      after.found? (tablePath output path) = some (.file table) := by
  obtain ⟨earlier, later, rfl⟩ := List.append_of_mem mem
  obtain ⟨-, from_path, across⟩ := List.pairwise_append.mp distinct
  have later_differ := (List.pairwise_cons.mp from_path).1
  refine written.table earlier path later rfl (fun other mem => (later_differ other mem).symm) ?_
  intro other mem shared
  exact absurd shared (across other mem path List.mem_cons_self)

end HasWritten

section Run

variable {α β : Type} {tree after : FileTree} {arguments : List String} {a : Arguments}

def OnlyMakesFolders (action : StateM FileTree α) : Prop :=
  ∀ tree, FileTree.ChangesOnly ∅ tree (action.run tree).2

theorem OnlyMakesFolders.of_onlyReads {action : StateM FileTree α} (reads : OnlyReads action) :
    OnlyMakesFolders action := by
  intro tree
  rw [reads tree]
  exact .refl _ _

theorem OnlyMakesFolders.bind {action : StateM FileTree α} {next : α → StateM FileTree β}
    (first : OnlyMakesFolders action) (second : ∀ a, OnlyMakesFolders (next a)) :
    OnlyMakesFolders (action >>= next) :=
  fun tree => (first tree).trans (second _ _)

theorem onlyMakesFolders_makeFolder (path : String) :
    OnlyMakesFolders (FileTree.access.makeFolder path) :=
  fun tree => tree.changesOnly_makeFolder path

theorem onlyMakesFolders_makeFolders (folders : List String) :
    OnlyMakesFolders (makeFolders FileTree.access folders) := by
  have reads {α : Type} {action : StateM FileTree α} (h : OnlyReads action) :
      OnlyMakesFolders action := .of_onlyReads h
  induction folders with
  | nil => exact reads (.pure false)
  | cons path around ih =>
    rw [makeFolders]
    split
    · exact reads (.pure true)
    · refine (onlyMakesFolders_makeFolder path).bind fun outcome => ?_
      cases outcome with
      | made => exact reads (.pure true)
      | refused => exact reads (onlyReads_isFolder path)
      | missing =>
        refine ih.bind fun ready => ?_
        cases ready with
        | false => exact reads (.pure false)
        | true =>
          refine (onlyMakesFolders_makeFolder path).bind fun outcome => ?_
          cases outcome with
          | made => exact reads (.pure true)
          | missing | refused => exact reads (onlyReads_isFolder path)

theorem exitCode_eq_zero_iff {result : Except ProgramError Unit} :
    (ProgramOutcome.ofResult result).exitCode = 0 ↔ result = .ok () := by
  cases result with
  | ok _ => exact ⟨fun _ => rfl, fun _ => rfl⟩
  | error e => cases e <;> simp [ProgramOutcome.ofResult, ProgramError.exitCode]

theorem runIn_of_run (read : Arguments.read arguments = .run a) (tree : FileTree) :
    runIn tree arguments =
      (.ofResult (onTree (evaluateMatches FileTree.access .augmentingPaths a) tree).1,
        (onTree (evaluateMatches FileTree.access .augmentingPaths a) tree).2) := by
  have ran : (run FileTree.access arguments).run tree =
      onTree (evaluateMatches FileTree.access .augmentingPaths a) tree := by
    rw [run, read]
    rfl
  rw [runIn, ran]

/-- The stages of a run that succeeds: only the last one changes files. -/
theorem evaluateMatches_eq_ok {solver : Solver}
    (ran : onTree (evaluateMatches FileTree.access solver a) tree = (.ok (), after)) :
    ∃ options pattern paths mid, onTree (optionsOf FileTree.access a) tree = (.ok options, tree) ∧
      PathPattern.parse? a.input = some pattern ∧
      (pattern.expand FileTree.access).run tree = (paths, tree) ∧
      FileTree.ChangesOnly ∅ tree mid ∧
      onTree (evaluateAll FileTree.access solver options a.output paths) mid = (.ok (), after) := by
  obtain ⟨options, between, built, rest⟩ := onTree_bind_eq_ok_iff.mp ran
  obtain rfl : between = tree :=
    (congrArg Prod.snd built).symm.trans (onTree_snd (onlyReads_optionsOf a) tree)
  cases parsed : PathPattern.parse? a.input with
  | none =>
    rw [parsed] at rest
    cases rest
  | some pattern =>
    simp only [parsed] at rest
    obtain ⟨paths, same, expanded, onwards⟩ := onTree_bind_eq_ok_iff.mp rest
    rw [onTree_lift_eq_ok_iff] at expanded
    obtain rfl : same = between :=
      (congrArg Prod.snd expanded).symm.trans (pattern.onlyReads_expand between)
    obtain ⟨ready, mid, made, processed⟩ := onTree_bind_eq_ok_iff.mp onwards
    rw [onTree_lift_eq_ok_iff] at made
    cases ready with
    | false => cases processed
    | true =>
      refine ⟨options, pattern, paths, mid, built, rfl, expanded, ?_, processed⟩
      have folders := onlyMakesFolders_makeFolders (a.output :: pathsAround a.output) same
      rwa [made] at folders

theorem evaluateMatches_of_stages {solver : Solver} {options : TrackerOptions Float}
    {pattern : PathPattern} {paths : List String} {mid : FileTree}
    (built : onTree (optionsOf FileTree.access a) tree = (.ok options, tree))
    (parsed : PathPattern.parse? a.input = some pattern)
    (expanded : (pattern.expand FileTree.access).run tree = (paths, tree))
    (made : (makeFolders FileTree.access (a.output :: pathsAround a.output)).run tree = (true, mid))
    (processed : onTree (evaluateAll FileTree.access solver options a.output paths) mid =
      (.ok (), after)) :
    onTree (evaluateMatches FileTree.access solver a) tree = (.ok (), after) := by
  rw [evaluateMatches, onTree_bind_of_ok built, parsed]
  dsimp only
  rw [onTree_bind_of_ok (onTree_lift_eq_ok_iff.mpr expanded),
    onTree_bind_of_ok (onTree_lift_eq_ok_iff.mpr made)]
  exact processed

theorem onTree_optionsOf_standard (tree : FileTree) (input output : String) :
    onTree (optionsOf FileTree.access ⟨input, output, none, none, none, none⟩) tree =
      (.ok .standard, tree) := by
  let options : TrackerOptions Float := .standard
  have configured : onTree (configured FileTree.access none) tree = (.ok options, tree) := rfl
  have overridden : onTree (optionsOf.liftExcept
      (override options ⟨input, output, none, none, none, none⟩)) tree = (.ok options, tree) := rfl
  rw [optionsOf, onTree_bind_of_ok configured, onTree_bind_of_ok overridden]
  cases checked : options.validate with
  | ok => rfl
  | error cause =>
    have valid : (TrackerOptions.standard : TrackerOptions Float).validate.isOk = true := by
      decide +kernel
    rw [checked] at valid
    cases valid

/-- A cycle in which the sensor, in the origin, sees a car at ten metres. Structures are written as
arrays of their fields. -/
def cycle : String :=
  "\x7b\"Detections\":[[[[1,0],\"base\"],[[1,[],[[10,0,0],null,null]," ++
    "[[[8,-1,0],[12,-1,0],[12,1,0],[8,1,0]],1.5]]]],[[[1,0],\"map\"],\"base\"," ++
    "[[0,0,0,1],[0,0,0]],[[0,0,0],[0,0,0]]]]\x7d"

def cycleLine : List UInt8 :=
  cycle.toList.flatMap String.utf8EncodeChar ++ [10]

def drive (cycles : Nat) : List UInt8 :=
  (List.replicate cycles cycleLine).flatten

set_option maxRecDepth 20000 in
theorem exists_read_cycleLine :
    ∃ event, Scenario.read Format.parseEvent? cycleLine = .ok [event] := by
  let bytes := cycle.toList.flatMap String.utf8EncodeChar
  -- one evaluation, since each would take the text apart again
  have facts : (Format.parseEvent? cycle).isSome = true ∧ ¬ Lines.isBlank cycle ∧ 10 ∉ bytes ∧
      bytes.getLast? ≠ some 13 := by
    decide +kernel
  obtain ⟨parses, written, unbroken, unreturned⟩ := facts
  obtain ⟨event, parsed⟩ := Option.isSome_iff_exists.mp parses
  have whole : Lines.withoutReturn bytes = bytes := if_neg unreturned
  have yields : Scenario.Yields Format.parseEvent? (Lines.withoutReturn bytes) (some event) :=
    .event whole.symm written parsed
  have lines : Lines.split cycleLine = [Lines.withoutReturn bytes] :=
    (Lines.AreLines.ended unbroken .nil).split_eq
  refine ⟨event, ?_⟩
  rw [Scenario.read, lines]
  exact Scenario.readLines_eq_ok_iff.mpr ⟨[some event], .cons yields .nil, rfl⟩

theorem exists_read_drive (cycles : Nat) :
    ∃ events, Scenario.read Format.parseEvent? (drive cycles) = .ok events ∧
      events.length = cycles := by
  have ended : Lines.IsEnded cycleLine := by
    intro last ends
    rw [cycleLine, List.getLast?_append] at ends
    exact (Option.some.inj ends).symm
  induction cycles with
  | zero => exact ⟨[], rfl, rfl⟩
  | succ cycles ih =>
    obtain ⟨event, first⟩ := exists_read_cycleLine
    obtain ⟨events, rest, rfl⟩ := ih
    refine ⟨event :: events, ?_, rfl⟩
    rw [drive, List.replicate_succ, List.flatten_cons]
    exact (Scenario.read_append_eq_ok_iff ended).mpr ⟨[event], events, first, rest, rfl⟩

theorem exists_runIn_drives {input output first second target target' : String} {m n : Nat}
    {mid : FileTree}
    (read : Arguments.read arguments = .run ⟨input, output, none, none, none, none⟩)
    (inputs : ((PathPattern.parse? input).map fun pattern =>
      ((pattern.expand FileTree.access).run tree).1) = some [first, second])
    (made : (makeFolders FileTree.access (output :: pathsAround output)).run tree = (true, mid))
    (targets : tablePath output first = target ∧ tablePath output second = target')
    (found : mid.found? first = some (.file (drive m))) :
    ∃ table table', IsTableOf .augmentingPaths .standard (drive m) table ∧
      IsTableOf .augmentingPaths .standard (drive n) table' ∧
      ∀ between after, mid.write? target table = some between →
        between.found? second = some (.file (drive n)) →
        between.write? target' table' = some after →
        runIn tree arguments = (⟨0, none, none⟩, after) := by
  have every : (TrackerOptions.standard : TrackerOptions Float).creation.policy =
      .everyDetection := rfl
  obtain ⟨rfl, rfl⟩ := targets
  obtain ⟨pattern, parsed, rest⟩ := Option.map_eq_some_iff.mp inputs
  have expanded : (pattern.expand FileTree.access).run tree = ([first, second], tree) :=
    Prod.ext rest (pattern.onlyReads_expand tree)
  obtain ⟨events, readable, -⟩ := exists_read_drive m
  obtain ⟨events', readable', -⟩ := exists_read_drive n
  obtain ⟨table, isTable⟩ := exists_isTableOf every .augmentingPaths readable
  obtain ⟨table', isTable'⟩ := exists_isTableOf every .augmentingPaths readable'
  refine ⟨table, table', isTable, isTable', fun between after written found' written' => ?_⟩
  have processed : onTree (evaluateAll FileTree.access .augmentingPaths .standard output
      [first, second]) mid = (.ok (), after) := by
    rw [evaluateAll, onTree_bind_of_ok (evaluate_eq_ok_iff.mpr ⟨_, _, found, isTable, written⟩),
      evaluateAll, onTree_bind_of_ok (evaluate_eq_ok_iff.mpr ⟨_, _, found', isTable', written'⟩)]
    rfl
  have built := onTree_optionsOf_standard tree input output
  rw [runIn_of_run read, evaluateMatches_of_stages built parsed expanded made processed]
  rfl

/-- A run that succeeds has written a table for each stem of its inputs, made of the last input of
that stem, and nothing else. -/
theorem hasWritten_of_success (read : Arguments.read arguments = .run a)
    (success : (runIn tree arguments).1.exitCode = 0) :
    ∃ options pattern paths, onTree (optionsOf FileTree.access a) tree = (.ok options, tree) ∧
      PathPattern.parse? a.input = some pattern ∧
      (pattern.expand FileTree.access).run tree = (paths, tree) ∧
      HasWritten .augmentingPaths options a.output paths tree (runIn tree arguments).2 := by
  have outcome := runIn_of_run read tree
  rw [outcome, exitCode_eq_zero_iff] at success
  obtain ⟨options, pattern, paths, mid, built, parsed, expanded, made, processed⟩ :=
    evaluateMatches_eq_ok (Prod.ext success rfl)
  rw [outcome]
  exact ⟨options, pattern, paths, built, parsed, expanded,
    (HasWritten.of_evaluateAll processed).of_changesOnly made⟩

set_option maxRecDepth 20000 in
/-- Two drives of different names: each has a table of its own. -/
theorem hasWritten_of_drives :
    let tree := FileTree.ofFiles [("a.jsonl", drive 1), ("b.jsonl", drive 2)]
    let arguments := ["--input", "*.jsonl"]
    Arguments.read arguments = .run ⟨"*.jsonl", "out", none, none, none, none⟩ ∧
      (runIn tree arguments).1.exitCode = 0 ∧
      HasWritten .augmentingPaths .standard "out" ["a.jsonl", "b.jsonl"] tree
        (runIn tree arguments).2 ∧
      ∀ path ∈ ["a.jsonl", "b.jsonl"], ∃ scenario table,
        tree.root.fileAt? (tree.addressOf path) = some scenario ∧
        IsTableOf .augmentingPaths .standard scenario table ∧
        (runIn tree arguments).2.found? (tablePath "out" path) = some (.file table) := by
  intro tree arguments
  have read : Arguments.read arguments = .run ⟨"*.jsonl", "out", none, none, none, none⟩ := rfl
  have inputs : ((PathPattern.parse? "*.jsonl").map fun pattern =>
      ((pattern.expand FileTree.access).run tree).1) = some ["a.jsonl", "b.jsonl"] := by
    decide +kernel
  have files (s s' table table' : List UInt8) :
      let mid := ((FileTree.ofFiles [("a.jsonl", s), ("b.jsonl", s')]).makeFolder "out").2
      mid.found? "a.jsonl" = some (.file s) ∧
        ∃ between after, mid.write? "out/a.csv" table = some between ∧
          between.found? "b.jsonl" = some (.file s') ∧
          between.write? "out/b.csv" table' = some after :=
    ⟨rfl, _, _, rfl, rfl, rfl⟩
  have targets : tablePath "out" "a.jsonl" = "out/a.csv" ∧
      tablePath "out" "b.jsonl" = "out/b.csv" := by decide +kernel
  obtain ⟨table, table', -, -, ran⟩ :=
    exists_runIn_drives read inputs rfl targets (files _ _ [] []).1
  obtain ⟨between, after, written, found, written'⟩ := (files _ _ table table').2
  have success : (runIn tree arguments).1.exitCode = 0 := by
    rw [ran between after written found written']
  obtain ⟨options, pattern, paths, built, parsed, expanded, tables⟩ :=
    hasWritten_of_success read success
  have standard := (Prod.mk.inj (built.symm.trans (onTree_optionsOf_standard tree _ _))).1
  obtain rfl := Except.ok.inj standard
  have names : paths = ["a.jsonl", "b.jsonl"] := by
    rw [parsed, Option.map_some, expanded] at inputs
    exact Option.some.inj inputs
  rw [names] at tables
  have distinct : ["a.jsonl", "b.jsonl"].Pairwise fun path other =>
      fileStem path ≠ fileStem other := by
    decide +kernel
  exact ⟨read, success, tables, fun path => tables.exists_table distinct⟩

set_option maxRecDepth 20000 in
/-- Two inputs of one stem share a table: the later one replaces that of the earlier one. -/
theorem single_table_of_shared_stem :
    let tree := FileTree.ofFiles [("drive.json", drive 1), ("drive.jsonl", drive 2)]
    let outcome := runIn tree ["--input", "drive.*"]
    ((PathPattern.parse? "drive.*").map fun pattern =>
        ((pattern.expand FileTree.access).run tree).1) = some ["drive.json", "drive.jsonl"] ∧
      outcome.1 = ⟨0, none, none⟩ ∧
      (outcome.2.entriesOf "out").map Prod.fst = ["drive.csv"] ∧
      ∃ table, IsTableOf .augmentingPaths .standard (drive 2) table ∧
        outcome.2.found? "out/drive.csv" = some (.file table) := by
  intro tree outcome
  have inputs : ((PathPattern.parse? "drive.*").map fun pattern =>
      ((pattern.expand FileTree.access).run tree).1) = some ["drive.json", "drive.jsonl"] := by
    decide +kernel
  have files (s s' table table' : List UInt8) :
      let mid := ((FileTree.ofFiles [("drive.json", s), ("drive.jsonl", s')]).makeFolder "out").2
      mid.found? "drive.json" = some (.file s) ∧
        ∃ between after, mid.write? "out/drive.csv" table = some between ∧
          between.found? "drive.jsonl" = some (.file s') ∧
          between.write? "out/drive.csv" table' = some after ∧
          (after.entriesOf "out").map Prod.fst = ["drive.csv"] ∧
          after.found? "out/drive.csv" = some (.file table') :=
    ⟨rfl, _, _, rfl, rfl, rfl, rfl, rfl⟩
  have read : Arguments.read ["--input", "drive.*"] =
      .run ⟨"drive.*", "out", none, none, none, none⟩ := rfl
  have targets : tablePath "out" "drive.json" = "out/drive.csv" ∧
      tablePath "out" "drive.jsonl" = "out/drive.csv" := by decide +kernel
  obtain ⟨table, table', -, isTable', ran⟩ :=
    exists_runIn_drives read inputs rfl targets (files _ _ [] []).1
  obtain ⟨between, after, written, found, written', entries, last⟩ := (files _ _ table table').2
  have whole : outcome = (⟨0, none, none⟩, after) := ran between after written found written'
  rw [whole]
  exact ⟨inputs, rfl, entries, table', isTable', last⟩

end Run

end TrackFusion.Program
