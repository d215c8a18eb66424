import Mathlib.Control.Basic
import TrackFusion.CommandLine.Program

/-!
Actions that only read.

Whatever a run does before it makes the output folder, and whatever it does with an input before it
writes a table, leaves the files as they are. An action only reads if all of its parts do.
-/

set_option autoImplicit false
set_option relaxedAutoImplicit false

namespace TrackFusion

/-- The action leaves the files as they are. -/
def OnlyReads {α : Type} (action : StateM FileTree α) : Prop :=
  ∀ tree, (action.run tree).2 = tree

namespace OnlyReads

variable {α β ε : Type}

theorem pure (a : α) : OnlyReads (pure a : StateM FileTree α) :=
  fun _ => rfl

theorem bind {action : StateM FileTree α} {next : α → StateM FileTree β}
    (first : OnlyReads action) (second : ∀ a, OnlyReads (next a)) :
    OnlyReads (action >>= next) := by
  intro tree
  change ((next (action.run tree).1).run (action.run tree).2).2 = tree
  rw [second, first]

theorem map (f : α → β) {action : StateM FileTree α} (reads : OnlyReads action) :
    OnlyReads (f <$> action) :=
  fun tree => reads tree

theorem mapM {f : α → StateM FileTree β} (reads : ∀ a, OnlyReads (f a)) (as : List α) :
    OnlyReads (as.mapM f) := by
  induction as with
  | nil =>
    rw [List.mapM_nil]
    exact .pure []
  | cons a as ih =>
    rw [List.mapM_cons]
    exact (reads a).bind fun b => ih.bind fun bs => .pure (b :: bs)

theorem filterM {p : α → StateM FileTree Bool} (reads : ∀ a, OnlyReads (p a)) (as : List α) :
    OnlyReads (as.filterM p) := by
  have all : ∀ kept, OnlyReads (as.filterAuxM p kept) := by
    induction as with
    | nil => exact fun kept => .pure kept
    | cons a as ih => exact fun kept => (reads a).bind fun _ => ih _
  exact (all []).bind fun kept => .pure kept.reverse

theorem exceptBind {action : ExceptT ε (StateM FileTree) α}
    {next : α → ExceptT ε (StateM FileTree) β} (first : OnlyReads action.run)
    (second : ∀ a, OnlyReads (next a).run) : OnlyReads (action >>= next).run := by
  rw [ExceptT.run_bind]
  refine first.bind fun result => ?_
  cases result with
  | ok a => exact second a
  | error e => exact .pure (Except.error e)

theorem lift {action : StateM FileTree α} (reads : OnlyReads action) :
    OnlyReads (ExceptT.lift action : ExceptT ε (StateM FileTree) α).run :=
  reads.map Except.ok

end OnlyReads

theorem onlyReads_kind (path : String) : OnlyReads (FileTree.access.kind path) :=
  fun _ => rfl

theorem onlyReads_read (path : String) : OnlyReads (FileTree.access.read path) :=
  fun _ => rfl

theorem onlyReads_isFolder (path : String) : OnlyReads (FileTree.access.isFolder path) :=
  (onlyReads_kind path).bind fun _ => .pure _

namespace PathPattern

theorem onlyReads_keep (foldersOnly : Bool) (path : String) :
    OnlyReads (keep FileTree.access foldersOnly path) := by
  refine (onlyReads_isFolder path).bind fun isFolder => ?_
  split <;> exact .pure _

theorem onlyReads_sortedChildren (folder : String) :
    OnlyReads (sortedChildren FileTree.access folder) := by
  refine (onlyReads_isFolder folder).bind fun isFolder => ?_
  split
  · exact fun _ => rfl
  · exact .pure _

theorem onlyReads_entriesBelow (depth : Nat) (folder : String) :
    OnlyReads (entriesBelow FileTree.access depth folder) := by
  induction depth generalizing folder with
  | zero => exact .pure []
  | succ depth ih =>
    refine (onlyReads_sortedChildren folder).bind fun names => ?_
    refine (OnlyReads.mapM (fun name => ?_) names).bind fun nested => .pure nested.flatten
    exact (ih _).bind fun below => .pure _

theorem onlyReads_continue (foldersOnly : Bool) {rest : List PatternComponent} {path : String}
    (below : OnlyReads (expandIn FileTree.access foldersOnly rest path)) :
    OnlyReads (if rest.isEmpty then keep FileTree.access foldersOnly path
      else expandIn FileTree.access foldersOnly rest path) := by
  split
  · exact onlyReads_keep foldersOnly path
  · exact below

theorem onlyReads_expandIn (foldersOnly : Bool) (components : List PatternComponent)
    (folder : String) : OnlyReads (expandIn FileTree.access foldersOnly components folder) := by
  induction components, folder using expandIn.induct FileTree.access foldersOnly with
  | case1 folder =>
    rw [expandIn]
    exact .pure []
  | case2 text rest folder path dots ih =>
    rw [expandIn, if_pos dots]
    refine (onlyReads_isFolder folder).bind fun found => ?_
    cases found with
    | false => exact .pure []
    | true => exact onlyReads_continue foldersOnly ih
  | case3 text rest folder path noDots ih =>
    rw [expandIn, if_neg noDots]
    refine ((onlyReads_kind path).map _).bind fun found => ?_
    cases found with
    | false => exact .pure []
    | true => exact onlyReads_continue foldersOnly ih
  -- folders of any depth, at the end and then before a further component
  | case4 folder =>
    rw [expandIn]
    exact (onlyReads_entriesBelow _ folder).bind fun paths => .filterM onlyReads_isFolder paths
  | case5 next rest folder ih =>
    rw [expandIn]
    refine (onlyReads_entriesBelow _ folder).bind fun paths => ?_
    refine (OnlyReads.mapM (fun path => ?_) paths).bind fun nested => .pure nested.flatten
    split
    · exact .pure []
    · exact onlyReads_continue foldersOnly (ih path)
  | case6 units rest folder ih =>
    rw [expandIn]
    refine (onlyReads_sortedChildren folder).bind fun names => ?_
    refine (onlyReads_isFolder folder).bind fun isFolder => ?_
    refine (OnlyReads.mapM (fun path => ?_) _).bind fun nested => .pure nested.flatten
    exact onlyReads_continue foldersOnly (ih path)

theorem onlyReads_expand (p : PathPattern) : OnlyReads (p.expand FileTree.access) :=
  onlyReads_expandIn p.foldersOnly p.components _

end PathPattern

namespace Program

theorem onlyReads_configured (config : Option String) :
    OnlyReads (configured FileTree.access config).run := by
  cases config with
  | none => exact .pure _
  | some path =>
    refine (OnlyReads.lift (onlyReads_kind path)).exceptBind fun kind => ?_
    cases kind with
    | none => exact .pure _
    | some kind =>
      refine (OnlyReads.lift (onlyReads_read path)).exceptBind fun bytes => ?_
      dsimp only
      split <;> exact .pure _

theorem onlyReads_optionsOf (a : Arguments) : OnlyReads (optionsOf FileTree.access a).run := by
  refine (onlyReads_configured a.config).exceptBind fun configured => ?_
  refine OnlyReads.exceptBind (.pure _) fun options => ?_
  split <;> exact .pure _

end Program

end TrackFusion
